import BlockDocs.DeltaPipeline

/-!
# The padding of a delta

The check of the WebSocket server compares texts without the `=` at their ends, so it
accepts any number of them. The browsers decode a text with all of its padding, or with
none.
-/

set_option autoImplicit false

namespace BlockDocs.PaddedDeltas
open BlockDocs.InsertionMap BlockDocs.Wire BlockDocs.DocBlocks BlockDocs.Base64
open BlockDocs.DeltaPipeline

variable {s : String} {bytes : Bytes} {k : ℕ}

def closingEquals (s : String) : ℕ := (s.toList.rtakeWhile (· = '=')).length

def Padded (s : String) : Prop :=
  closingEquals s = 0 ∨ (closingEquals s ≤ 2 ∧ s.toList.length%4 = 0)

instance (s : String) : Decidable (Padded s) := inferInstanceAs (Decidable (_ ∨ _))

theorem split_equals (s : List Char) :
    s = stripEquals s++List.replicate (s.rtakeWhile (· = '=')).length '=' := by
  have hequals : s.rtakeWhile (· = '=') =
      List.replicate (s.rtakeWhile (· = '=')).length '=' := by
    refine List.eq_replicate_of_mem fun c hc => ?_
    exact of_decide_eq_true (List.mem_rtakeWhile_imp (p := fun x => decide (x = '=')) hc)
  rw [← hequals]
  exact List.rdropWhile_append_rtakeWhile.symm

theorem stripEquals_encode (bytes : Bytes) :
    stripEquals (encode bytes) = (sextets bytes).map symbol := by
  have hplain := symbols_ne_equals bytes
  have hself : stripEquals ((sextets bytes).map symbol) = (sextets bytes).map symbol := by
    refine List.rdropWhile_eq_self_iff.mpr fun hne hlast => hplain ?_
    rw [← of_decide_eq_true hlast]
    exact List.getLast_mem hne
  have hdrop : ∀ k, stripEquals ((sextets bytes).map symbol++List.replicate k '=') =
      (sextets bytes).map symbol := by
    intro k
    induction k with
    | zero => rw [List.replicate_zero,List.append_nil,hself]
    | succ k ih =>
      rw [List.replicate_succ',← List.append_assoc,stripEquals,
        List.rdropWhile_concat_pos _ _ _ (by decide)]
      exact ih
  exact hdrop _

/-- What passes the check is an encoded text with some other number of `=`. -/
theorem valid_form (h : isValidBase64NonEmpty s = true) :
    s.toList = (sextets (bufferFrom s.toList)).map symbol++
      List.replicate (closingEquals s) '=' := by
  unfold isValidBase64NonEmpty at h
  split at h
  · cases h
  · dsimp only at h
    split at h
    · cases h
    · have hstrip := of_decide_eq_true h
      rw [stripEquals_encode] at hstrip
      rw [hstrip]
      exact split_equals s.toList

/-! ## The browser's decoder -/

theorem mapM_equals {cs : List Char} (h : '=' ∈ cs) : cs.mapM sextet = none := by
  induction cs with
  | nil => cases h
  | cons c cs ih =>
    rw [List.mapM_cons]
    rcases List.mem_cons.mp h with rfl | h
    · rfl
    · rw [ih h]
      cases sextet c <;> rfl

theorem no_space (bytes : Bytes) (k : ℕ) :
    ((sextets bytes).map symbol++List.replicate k '=').filter (fun c => !asciiSpace c) =
      (sextets bytes).map symbol++List.replicate k '=' := by
  rw [List.filter_eq_self]
  intro c hc
  rcases List.mem_append.mp hc with hc | hc
  · obtain ⟨n,hn,rfl⟩ := List.mem_map.mp hc
    simp [(symbol_plain (sextets_small bytes n hn)).2.2.2]
  · rw [List.eq_of_mem_replicate hc]
    rfl

theorem dropEquals_replicate {cs : List Char} (hcs : '=' ∉ cs) (k : ℕ) :
    dropEquals (cs++List.replicate k '=') = cs++List.replicate (k-1) '=' := by
  cases k with
  | zero =>
    rw [List.replicate_zero,List.append_nil]
    exact dropEquals_self hcs
  | succ k =>
    rw [List.replicate_succ',← List.append_assoc,dropEquals_concat]
    rfl

theorem forgivingDecode_padded (bytes : Bytes) (k : ℕ) :
    forgivingDecode ((sextets bytes).map symbol++List.replicate k '=') =
      if k = 0 ∨ (k ≤ 2 ∧ ((sextets bytes).length+k)%4 = 0) then some bytes else none := by
  have hplain := symbols_ne_equals bytes
  have hlast := sextets_length bytes
  have hread : ((sextets bytes).map symbol).mapM sextet = some (sextets bytes) :=
    mapM_symbols (sextets_small bytes)
  have hrest : ∀ j, 0 < j →
      ((sextets bytes).map symbol++List.replicate j '=').mapM sextet = none := by
    intro j hj
    refine mapM_equals (List.mem_append_right _ (List.mem_replicate.mpr ⟨?_,rfl⟩))
    omega
  simp only [forgivingDecode,no_space,List.length_append,List.length_map,List.length_replicate]
  by_cases hfull : ((sextets bytes).length+k)%4 = 0
  · rw [if_pos hfull,dropEquals_replicate hplain,dropEquals_replicate hplain]
    by_cases hk : k ≤ 2
    · have hzero : k-1-1 = 0 := by omega
      rw [if_pos (Or.inr ⟨hk,hfull⟩),hzero,List.replicate_zero,List.append_nil,List.length_map,
        if_neg hlast,hread,Option.map_some,octets_sextets]
    · have hnot : ¬(k = 0 ∨ (k ≤ 2 ∧ ((sextets bytes).length+k)%4 = 0)) := by omega
      rw [if_neg hnot,hrest _ (by omega)]
      split <;> rfl
  · rw [if_neg hfull]
    by_cases hk : k = 0
    · subst hk
      rw [if_pos (Or.inl rfl),List.replicate_zero,List.append_nil,List.length_map,if_neg hlast,
        hread,Option.map_some,octets_sextets]
    · have hnot : ¬(k = 0 ∨ (k ≤ 2 ∧ ((sextets bytes).length+k)%4 = 0)) := by omega
      rw [if_neg hnot,hrest k (by omega)]
      split <;> rfl

theorem b64ToBytes_valid (h : isValidBase64NonEmpty s = true) :
    b64ToBytes s = some (bufferFrom s.toList) ↔ Padded s := by
  have hform := valid_form h
  have hlength : s.toList.length =
      (sextets (bufferFrom s.toList)).length+closingEquals s := by
    have hlen := congrArg List.length hform
    rwa [List.length_append,List.length_map,List.length_replicate] at hlen
  have hdecode : forgivingDecode s.toList =
      if Padded s then some (bufferFrom s.toList) else none := by
    conv_lhs => rw [hform,forgivingDecode_padded,← hlength]
    rfl
  rw [b64ToBytes,atob,hdecode]
  by_cases hpadded : Padded s
  · simp [hpadded,codeUnits_latin1]
  · simp [hpadded]

/-- What the server relays is decoded by the browsers, to the bytes that Node reads,
exactly when its padding is complete or missing. What the browsers encode is accepted. -/
theorem relayed_decodable_iff {userId : UserId} {xadd : XaddReply} {msg : ClientCrdtMessage}
    {record : StreamRecord} {frame : CrdtFrame}
    (h : handleCrdt userId xadd msg = some (record,frame)) :
    (b64ToBytes frame.delta = some (bufferFrom frame.delta.toList) ↔ Padded frame.delta) ∧
      ∀ update : Bytes, update ≠ [] → ∃ text, bytesToB64 update = some text ∧
        isValidBase64NonEmpty text = true := by
  unfold handleCrdt at h
  split at h
  · next hvalid =>
    have hdelta : frame.delta = msg.delta := by
      cases xadd with
      | id streamId =>
        cases h
        rfl
      | null => cases h
      | failed => cases h
    rw [hdelta]
    exact ⟨b64ToBytes_valid hvalid,fun update hne => ⟨_,bytesToB64_eq update,valid_encode hne⟩⟩
  · cases h

theorem typed_decodable :
    (b64ToBytes typedMessage.delta = some (bufferFrom typedMessage.delta.toList) ↔
      Padded typedMessage.delta) ∧
    ∀ update : Bytes, update ≠ [] → ∃ text, bytesToB64 update = some text ∧
      isValidBase64NonEmpty text = true := by
  have hne : typedUpdate ≠ [] := by decide
  have hsent : bytesToB64 typedUpdate = some typedMessage.delta := by
    rw [bytesToB64_eq]
    decide
  have hrelayed := handleCrdt_accepts hne hsent 7 (toLex (1,0))
  exact relayed_decodable_iff hrelayed

def halfPadded : ClientCrdtMessage := { typedMessage with delta := "AA=", delta_min := by decide }

theorem half_padded_relayed : ¬∀ (userId : UserId) (xadd : XaddReply) (msg : ClientCrdtMessage)
    (record : StreamRecord) (frame : CrdtFrame), handleCrdt userId xadd msg = some (record,frame) →
    b64ToBytes frame.delta = some (bufferFrom frame.delta.toList) := by
  intro hall
  have hdecoded := hall 7 (.id (toLex (1,0))) halfPadded _ _ rfl
  have hthrown : b64ToBytes "AA=" = none := by decide
  cases hthrown.symm.trans hdecoded

end BlockDocs.PaddedDeltas
