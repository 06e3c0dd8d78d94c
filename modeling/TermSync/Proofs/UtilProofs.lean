import TermSync.Text

/-!
# Proofs: byte splicing is character editing

On a text that is cut into well-formed characters (`pieces`), the character count is the number of
pieces, a byte offset is the length of the pieces before it, and `ts_apply_operation_to_text` edits
the list of pieces.
-/

namespace TermSync

open Foundations

/-! ## Well-formed characters -/

theorem tsUtf8CharBytes_eq {b : UInt8} (hb : b ≠ 0) : tsUtf8CharBytes b = Utf8.leadLength b := by
  simp only [tsUtf8CharBytes, Utf8.leadLength, if_neg hb]

theorem tsUtf8CharCount_eq_countP (text : Bytes) :
    tsUtf8CharCount text = text.countP fun b => !isUtf8Continuation b := by
  induction text with
  | nil => rfl
  | cons b text ih =>
    rw [tsUtf8CharCount, ih]
    cases hb : isUtf8Continuation b
    · rw [List.countP_cons_of_pos (by simp [hb])]
      simp only [Bool.false_eq_true, if_false]
      omega
    · rw [List.countP_cons_of_neg (by simp [hb])]
      simp

theorem WellFormedChar.isBlock {ch : Bytes} (h : WellFormedChar ch) :
    IsBlock isUtf8Continuation ch := by
  obtain ⟨c, -, rfl⟩ := h
  exact Utf8.isBlock_utf8EncodeChar c

/-- The first byte of a well-formed character is not the terminator and announces its length. -/
theorem WellFormedChar.eq_cons {ch : Bytes} (h : WellFormedChar ch) :
    ∃ b t, ch = b :: t ∧ b ≠ 0 ∧ tsUtf8CharBytes b = ch.length := by
  obtain ⟨c, hc, rfl⟩ := h
  obtain ⟨b, t, heq, -, hlen, -, hz⟩ := Utf8.utf8EncodeChar_shape c
  refine ⟨b, t, heq, hz hc, ?_⟩
  rw [tsUtf8CharBytes_eq (hz hc), heq, hlen, List.length_cons]

/-- A well-formed character counts as one character. -/
theorem WellFormedChar.charCount {ch : Bytes} (h : WellFormedChar ch) : tsUtf8CharCount ch = 1 := by
  rw [tsUtf8CharCount_eq_countP]
  exact h.isBlock.countP_eq_one

theorem WellFormedChar.length_le_four {ch : Bytes} (h : WellFormedChar ch) : ch.length ≤ 4 := by
  obtain ⟨c, -, rfl⟩ := h
  rw [String.length_utf8EncodeChar]
  exact c.utf8Size_le_four

theorem validText_iff_pieces {text : Bytes} :
    ValidText text ↔ ∃ ps : List Bytes, (∀ p ∈ ps, WellFormedChar p) ∧ text = ps.flatten := by
  constructor
  · rintro ⟨cs, hcs, rfl⟩
    refine ⟨cs.map String.utf8EncodeChar, fun p hp => ?_, Utf8.encode_eq_flatten cs⟩
    obtain ⟨c, hc, rfl⟩ := List.mem_map.mp hp
    exact ⟨c, hcs c hc, rfl⟩
  · rintro ⟨ps, hps, rfl⟩
    induction ps with
    | nil => exact ⟨[], by simp, rfl⟩
    | cons p ps ih =>
      obtain ⟨cs, hcs, htext⟩ := ih fun q hq => hps q (List.mem_cons_of_mem p hq)
      obtain ⟨c, hc, rfl⟩ := hps p List.mem_cons_self
      refine ⟨c :: cs, fun d hd => ?_, ?_⟩
      · rcases List.mem_cons.mp hd with rfl | hd
        · exact hc
        · exact hcs d hd
      · rw [List.flatten_cons, htext]
        rfl

/-! ## Counting and walking -/

theorem charAt_append_cons (a : Bytes) (b : UInt8) (c : Bytes) :
    charAt (a ++ b :: c) a.length = some b := by
  simp [charAt]

theorem charAt_length (a : Bytes) : charAt a a.length = some 0 := by
  simp [charAt]

/-- Only the terminator and what lies before it can be read. -/
theorem charAt_eq_none_iff {text : Bytes} {i : ℕ} : charAt text i = none ↔ text.length < i := by
  rw [charAt]
  by_cases hlt : i < text.length
  · simp [hlt, hlt.le]
  · rw [if_neg hlt]
    by_cases heq : i = text.length
    · simp [heq]
    · rw [if_neg heq]
      simp only [true_iff]
      omega

theorem flatten_eq_take_append_drop (ps : List Bytes) (n : ℕ) :
    ps.flatten = (ps.take n).flatten ++ (ps.drop n).flatten := by
  rw [← List.flatten_append, List.take_append_drop]

theorem take_flatten_length (ps : List Bytes) (n : ℕ) :
    ps.flatten.take (ps.take n).flatten.length = (ps.take n).flatten := by
  conv_lhs => rw [flatten_eq_take_append_drop ps n]
  exact List.take_left

theorem drop_flatten_length (ps : List Bytes) (n : ℕ) :
    ps.flatten.drop (ps.take n).flatten.length = (ps.drop n).flatten := by
  conv_lhs => rw [flatten_eq_take_append_drop ps n]
  exact List.drop_left

section Pieces

variable {ps : List Bytes} (hps : ∀ p ∈ ps, WellFormedChar p)

include hps

/-- The character count is the number of pieces. -/
theorem tsUtf8CharCount_flatten : tsUtf8CharCount ps.flatten = ps.length := by
  rw [tsUtf8CharCount_eq_countP]
  exact countP_flatten fun p hp => (hps p hp).isBlock

/-- The walk from a piece boundary skips as many pieces as asked for, or stops at the end. -/
theorem byteOffsetLoop_pieces (pre : Bytes) (n : ℕ) :
    byteOffsetLoop (pre ++ ps.flatten) n pre.length =
      some (pre.length + (ps.take n).flatten.length) := by
  induction ps generalizing pre n with
  | nil =>
    rw [List.flatten_nil, List.append_nil]
    cases n <;> simp [byteOffsetLoop, charAt_length]
  | cons p ps ih =>
    obtain ⟨b, t, hp, hb, hlen⟩ := (hps p List.mem_cons_self).eq_cons
    have hread : charAt (pre ++ (p :: ps).flatten) pre.length = some b := by
      rw [List.flatten_cons, hp, List.cons_append, charAt_append_cons]
    cases n with
    | zero =>
      rw [byteOffsetLoop, hread]
      simp
    | succ n =>
      have hrec := ih (fun q hq => hps q (List.mem_cons_of_mem p hq)) (pre ++ p) n
      rw [List.length_append, List.append_assoc, ← List.flatten_cons] at hrec
      rw [byteOffsetLoop, hread, Option.bind_eq_bind, Option.bind_some, if_neg hb, hlen, hrec,
        List.take_succ_cons, List.flatten_cons, List.length_append, Nat.add_assoc]

/-- A byte offset is the length of the pieces before the character position. -/
theorem tsUtf8ByteOffset_flatten (n : ℕ) :
    tsUtf8ByteOffset ps.flatten n = some (ps.take n).flatten.length := by
  simpa [tsUtf8ByteOffset] using byteOffsetLoop_pieces hps [] n

/-- On a text of well-formed characters, an operation edits the list of characters. -/
theorem tsApplyOperationToText_flatten (op : TsOperation) :
    tsApplyOperationToText ps.flatten op =
      some ((opEdit op ps.length op.ch).apply ps).flatten := by
  cases hkind : op.kind with
  | noop => simp [tsApplyOperationToText, opEdit, hkind, Edit.apply]
  | invalid => simp [tsApplyOperationToText, opEdit, hkind, Edit.apply]
  | insert =>
    have hpos : (if op.pos > ps.length then ps.length else op.pos) = min op.pos ps.length := by
      split_ifs <;> omega
    simp only [tsApplyOperationToText, opEdit, hkind, tsUtf8CharCount_flatten hps, hpos,
      tsUtf8ByteOffset_flatten hps, Option.bind_eq_bind, Option.bind_some, take_flatten_length,
      drop_flatten_length, Edit.apply]
    rw [insertIdx_eq_take_append_drop (min_le_right op.pos ps.length), List.flatten_append,
      List.flatten_cons, List.append_assoc]
  | delete =>
    simp only [tsApplyOperationToText, opEdit, hkind, tsUtf8CharCount_flatten hps]
    by_cases hlt : op.pos < ps.length
    · rw [if_neg (by omega), if_pos hlt]
      simp only [tsUtf8ByteOffset_flatten hps, Option.bind_eq_bind, Option.bind_some,
        take_flatten_length, drop_flatten_length, Edit.apply]
      rw [List.eraseIdx_eq_take_drop_succ, List.flatten_append]
    · rw [if_pos (by omega), if_neg hlt]
      rfl

end Pieces

/-! ## The edit of an operation -/

theorem fits_opEdit {α : Type*} (op : TsOperation) (l : List α) (a : α) :
    (opEdit op l.length a).Fits l := by
  cases hk : op.kind with
  | insert => simp only [opEdit, hk, Edit.Fits, min_le_right]
  | delete =>
    simp only [opEdit, hk]
    split_ifs with hlt
    · exact hlt
    · trivial
  | noop => simp only [opEdit, hk, Edit.Fits]
  | invalid => simp only [opEdit, hk, Edit.Fits]

theorem inserted_opEdit {α : Type*} (op : TsOperation) (len : ℕ) (a : α) :
    (opEdit op len a).inserted = if op.kind = .insert then [a] else [] := by
  cases hk : op.kind with
  | insert => simp [opEdit, hk, Edit.inserted]
  | delete =>
    simp only [opEdit, hk]
    split_ifs <;> simp_all [Edit.inserted]
  | noop => simp [opEdit, hk, Edit.inserted]
  | invalid => simp [opEdit, hk, Edit.inserted]

/-- Only an insertion brings something in. -/
theorem opEdit_congr {α : Type*} {op : TsOperation} (hk : op.kind ≠ .insert) (len : ℕ) (a b : α) :
    opEdit op len a = opEdit op len b := by
  cases hkind : op.kind with
  | insert => exact absurd hkind hk
  | delete => simp only [opEdit, hkind]
  | noop => simp only [opEdit, hkind]
  | invalid => simp only [opEdit, hkind]

/-- The edit of an operation acts on every view of the characters in the same way. -/
theorem map_opEdit_apply {α β : Type*} (f : α → β) (op : TsOperation) (l : List α) (a : α) :
    ((opEdit op l.length a).apply l).map f = (opEdit op (l.map f).length (f a)).apply (l.map f) := by
  cases hk : op.kind with
  | insert => simp only [opEdit, hk, Edit.apply, List.map_insertIdx, List.length_map]
  | delete =>
    simp only [opEdit, hk, List.length_map]
    split_ifs
    · simp only [Edit.apply, List.eraseIdx_map]
    · rfl
  | noop => simp only [opEdit, hk, Edit.apply]
  | invalid => simp only [opEdit, hk, Edit.apply]

/-! ## Texts as lists of characters -/

section Characters

variable {text : Bytes} {cs : List Char} (h : Denotes text cs)

include h

theorem Denotes.eq_flatten : text = (cs.map String.utf8EncodeChar).flatten :=
  h.2.trans (Utf8.encode_eq_flatten cs)

theorem Denotes.wellFormed : ∀ p ∈ cs.map String.utf8EncodeChar, WellFormedChar p := by
  intro p hp
  obtain ⟨c, hc, rfl⟩ := List.mem_map.mp hp
  exact ⟨c, h.1 c hc, rfl⟩

theorem Denotes.take (n : ℕ) : Denotes (Utf8.encode (cs.take n)) (cs.take n) :=
  ⟨fun c hc => h.1 c (List.mem_of_mem_take hc), rfl⟩

theorem Denotes.drop (n : ℕ) : Denotes (Utf8.encode (cs.drop n)) (cs.drop n) :=
  ⟨fun c hc => h.1 c (List.mem_of_mem_drop hc), rfl⟩

theorem Denotes.charCount : tsUtf8CharCount text = cs.length := by
  rw [h.eq_flatten, tsUtf8CharCount_flatten h.wellFormed, List.length_map]

/-- A byte offset is the length of the characters before the character position. -/
theorem Denotes.byteOffset (n : ℕ) :
    tsUtf8ByteOffset text n = some (Utf8.encode (cs.take n)).length := by
  rw [h.eq_flatten, tsUtf8ByteOffset_flatten h.wellFormed, ← List.map_take,
    ← Utf8.encode_eq_flatten]

theorem Denotes.eq_append (n : ℕ) :
    text = Utf8.encode (cs.take n) ++ Utf8.encode (cs.drop n) := by
  rw [← Utf8.encode_append, List.take_append_drop]
  exact h.2

/-- The text after an operation denotes the characters after its edit, where `c` is the character
that an insertion brings in. -/
theorem Denotes.apply {op : TsOperation} {c : Char}
    (hc : op.kind = .insert → c ≠ '\x00' ∧ op.ch = String.utf8EncodeChar c) :
    ∃ updated, tsApplyOperationToText text op = some updated ∧
      Denotes updated ((opEdit op cs.length c).apply cs) := by
  refine ⟨_, by rw [h.eq_flatten]; exact tsApplyOperationToText_flatten h.wellFormed op, ?_, ?_⟩
  · intro d hd
    rcases Edit.mem_apply_of_mem hd with hd | hd
    · rw [inserted_opEdit] at hd
      split_ifs at hd with hk
      · rw [List.mem_singleton.mp hd]
        exact (hc hk).1
      · cases hd
    · exact h.1 d hd
  · rw [Utf8.encode_eq_flatten, map_opEdit_apply]
    congr 2
    by_cases hk : op.kind = .insert
    · rw [(hc hk).2]
    · exact opEdit_congr hk _ _ _

/-- On valid UTF-8, an insertion inserts its character at its position or at the end, a deletion
erases the character at its position if there is one, and a NOOP changes nothing. Every byte offset
is a boundary between two characters. -/
theorem textEdits_listEdits (op : TsOperation) :
    (op.kind = .insert → ∀ c, c ≠ '\x00' → op.ch = String.utf8EncodeChar c →
      ∃ updated, tsApplyOperationToText text op = some updated ∧
        Denotes updated (cs.insertIdx (min op.pos cs.length) c)) ∧
    (op.kind = .delete → ∃ updated, tsApplyOperationToText text op = some updated ∧
      Denotes updated (if op.pos < cs.length then cs.eraseIdx op.pos else cs)) ∧
    (op.kind = .noop → ∃ updated, tsApplyOperationToText text op = some updated ∧
      Denotes updated cs) ∧
    ∀ p, ∃ bytePos nextByte, tsUtf8ByteOffset text p = some bytePos ∧
      tsUtf8ByteOffset text (p + 1) = some nextByte ∧
      bytePos ≤ nextByte ∧ nextByte ≤ text.length ∧
      Denotes (text.take bytePos) (cs.take p) ∧ Denotes (text.drop bytePos) (cs.drop p) := by
  refine ⟨fun hk c hc hch => ?_, fun hk => ?_, fun hk => ?_, fun p => ?_⟩
  · obtain ⟨updated, happly, hden⟩ := h.apply (c := c) fun _ => ⟨hc, hch⟩
    simp only [opEdit, hk, Edit.apply] at hden
    exact ⟨updated, happly, hden⟩
  · obtain ⟨updated, happly, hden⟩ :=
      h.apply (c := 'a') fun hi => absurd (hk.symm.trans hi) (by decide)
    refine ⟨updated, happly, ?_⟩
    simp only [opEdit, hk] at hden
    split_ifs at hden ⊢ <;> exact hden
  · obtain ⟨updated, happly, hden⟩ :=
      h.apply (c := 'a') fun hi => absurd (hk.symm.trans hi) (by decide)
    simp only [opEdit, hk, Edit.apply] at hden
    exact ⟨updated, happly, hden⟩
  · refine ⟨_, _, h.byteOffset p, h.byteOffset (p + 1), ?_, ?_, ?_, ?_⟩
    · have hpre : cs.take (p + 1) = cs.take p ++ (cs.drop p).take 1 := List.take_add
      rw [hpre, Utf8.encode_append, List.length_append]
      exact Nat.le_add_right _ _
    · conv_rhs => rw [h.eq_append (p + 1)]
      rw [List.length_append]
      exact Nat.le_add_right _ _
    · have htake : text.take (Utf8.encode (cs.take p)).length = Utf8.encode (cs.take p) := by
        conv_lhs => rw [h.eq_append p]
        exact List.take_left
      rw [htake]
      exact h.take p
    · have hdrop : text.drop (Utf8.encode (cs.take p)).length = Utf8.encode (cs.drop p) := by
        conv_lhs => rw [h.eq_append p]
        exact List.drop_left
      rw [hdrop]
      exact h.drop p

end Characters

theorem textEdits_listEdits_wide :
    ∃ updated, tsApplyOperationToText (bytes "a界b") (tsOperationInit .delete 1 []) = some updated ∧
      Denotes updated ['a', 'b'] := by
  have h : Denotes (bytes "a界b") ['a', '界', 'b'] := ⟨by decide, by decide⟩
  exact (textEdits_listEdits h (tsOperationInit .delete 1 [])).2.1 rfl

end TermSync
