import TermSync.ByteOffsets
import TermSync.Proofs.UtilProofs

/-!
# Proofs: byte offsets in arbitrary texts

`ts_utf8_byte_offset` walks by the lengths that first bytes announce. It stays inside a text exactly
as long as the characters it skips are complete (`byteOffset_inside_iff`); a text that ends in the
middle of an announced character takes the walk over the terminator (`offsets_inside_iff`).
-/

namespace TermSync

open Foundations

/-! ## The walk -/

theorem tsUtf8CharBytes_pos {b : UInt8} (hb : b ≠ 0) : 0 < tsUtf8CharBytes b := by
  rw [tsUtf8CharBytes, if_neg hb]
  split_ifs <;> decide

/-- A walk that has stepped over the terminator reads behind it. -/
theorem byteOffsetLoop_eq_none {text : Bytes} {i : ℕ} (h : text.length < i) (n : ℕ) :
    byteOffsetLoop text n i = none := by
  have hread := charAt_eq_none_iff.mpr h
  cases n with
  | zero => rw [byteOffsetLoop, hread]; rfl
  | succ n => rw [byteOffsetLoop, hread]; rfl

/-- The loop is a walk by announced lengths. -/
theorem byteOffsetLoop_eq_walk {text : Bytes} (htext : ∀ b ∈ text, b ≠ 0) (pre : Bytes) (n : ℕ) :
    byteOffsetLoop (pre ++ text) n pre.length =
      (walk tsUtf8CharBytes n text).map fun reached => pre.length + reached := by
  induction n generalizing pre text with
  | zero =>
    cases text with
    | nil => rw [byteOffsetLoop, List.append_nil, charAt_length]; rfl
    | cons b text => rw [byteOffsetLoop, charAt_append_cons]; rfl
  | succ n ih =>
    cases text with
    | nil =>
      rw [byteOffsetLoop, List.append_nil, charAt_length]
      rfl
    | cons b text =>
      have hb := htext b List.mem_cons_self
      rw [byteOffsetLoop, charAt_append_cons, Option.bind_eq_bind, Option.bind_some, if_neg hb, walk]
      by_cases hfits : tsUtf8CharBytes b ≤ (b :: text).length
      · have hdrop : ∀ c ∈ (b :: text).drop (tsUtf8CharBytes b), c ≠ 0 := fun c hc =>
          htext c (List.mem_of_mem_drop hc)
        have hrest := ih hdrop (pre ++ (b :: text).take (tsUtf8CharBytes b))
        rw [List.append_assoc, List.take_append_drop, List.length_append,
          List.length_take_of_le hfits] at hrest
        rw [if_pos hfits, hrest, Option.map_map]
        simp only [Function.comp_def, Nat.add_assoc]
      · rw [if_neg hfits, byteOffsetLoop_eq_none (by rw [List.length_append]; omega)]
        rfl

theorem sizeSub_le {a b size : ℕ} (hba : b ≤ a) (ha : a ≤ size) : sizeSub a b ≤ size := by
  have hsub : a + sizeModulus - b = a - b + sizeModulus := by omega
  rw [sizeSub, hsub, Nat.add_mod_right]
  exact (Nat.mod_le _ _).trans (by omega)

section Offsets

variable {text : Bytes} (htext : ∀ b ∈ text, b ≠ 0)

include htext

theorem tsUtf8ByteOffset_eq_walk (charPos : ℕ) :
    tsUtf8ByteOffset text charPos = walk tsUtf8CharBytes charPos text := by
  have h := byteOffsetLoop_eq_walk htext [] charPos
  rw [List.nil_append, List.length_nil] at h
  rw [tsUtf8ByteOffset, h]
  simp only [Nat.zero_add, Option.map_id']

theorem tsUtf8ByteOffset_le {charPos offset : ℕ} (h : tsUtf8ByteOffset text charPos = some offset) :
    offset ≤ text.length := by
  rw [tsUtf8ByteOffset_eq_walk htext] at h
  exact walk_le h

theorem tsUtf8ByteOffset_mono {p q offset offset' : ℕ} (hle : p ≤ q)
    (hp : tsUtf8ByteOffset text p = some offset) (hq : tsUtf8ByteOffset text q = some offset') :
    offset ≤ offset' := by
  rw [tsUtf8ByteOffset_eq_walk htext] at hp hq
  exact walk_mono hle hp hq

/-- A byte offset is inside the text exactly when the characters before it are complete. -/
theorem byteOffset_inside_iff (charPos : ℕ) :
    OffsetInside text charPos ↔ CompleteUpTo text charPos := by
  have hwidth : ∀ b ∈ text, 0 < tsUtf8CharBytes b := fun b hb => tsUtf8CharBytes_pos (htext b hb)
  constructor
  · rintro ⟨offset, h, -⟩
    rw [tsUtf8ByteOffset_eq_walk htext] at h
    obtain ⟨chars, rest, hchars, heq, -, hcount⟩ := (walk_eq_some_iff hwidth).mp h
    exact ⟨chars, rest, hchars, heq, hcount⟩
  · rintro ⟨chars, rest, hchars, heq, hcount⟩
    have h := (walk_eq_some_iff hwidth).mpr ⟨chars, rest, hchars, heq, rfl, hcount⟩
    rw [← tsUtf8ByteOffset_eq_walk htext] at h
    exact ⟨_, h, tsUtf8ByteOffset_le htext h⟩

theorem offsetInside_of_le {p q : ℕ} (hle : p ≤ q) (h : OffsetInside text q) :
    OffsetInside text p := by
  obtain ⟨chars, rest, hchars, heq, hcount⟩ := (byteOffset_inside_iff htext q).mp h
  refine (byteOffset_inside_iff htext p).mpr ?_
  by_cases hp : chars.length ≤ p
  · refine ⟨chars, rest, hchars, heq, ?_⟩
    rcases hcount with hcount | ⟨-, hrest⟩
    · exact Or.inl (by omega)
    · exact Or.inr ⟨hp, hrest⟩
  · refine ⟨chars.take p, (chars.drop p).flatten ++ rest,
      fun ch hch => hchars ch (List.mem_of_mem_take hch), ?_, Or.inl ?_⟩
    · rw [← List.append_assoc, ← flatten_eq_take_append_drop, heq]
    · exact List.length_take_of_le (by omega)

/-- All byte offsets are inside the text exactly when it ends at the end of a character. -/
theorem byteOffsets_inside_iff : (∀ charPos, OffsetInside text charPos) ↔ CompleteText text := by
  have hwidth : ∀ b ∈ text, 0 < tsUtf8CharBytes b := fun b hb => tsUtf8CharBytes_pos (htext b hb)
  refine Iff.trans (forall_congr' fun charPos => ?_) (forall_walk_iff hwidth)
  rw [OffsetInside, tsUtf8ByteOffset_eq_walk htext]
  constructor
  · rintro ⟨offset, h, -⟩
    exact ⟨offset, h⟩
  · rintro ⟨offset, h⟩
    exact ⟨offset, h, walk_le h⟩

/-! ## The sizes -/

theorem noWrap_insert_iff {op : TsOperation} (hkind : op.kind = .insert) :
    NoWrap text op ↔ OffsetInside text (min op.pos (tsUtf8CharCount text)) := by
  have hpos : (if op.pos > tsUtf8CharCount text then tsUtf8CharCount text else op.pos) =
      min op.pos (tsUtf8CharCount text) := by
    split_ifs <;> omega
  simp only [NoWrap, applyDifferences, hkind, hpos]
  constructor
  · rintro ⟨differences, h, -⟩
    obtain ⟨offset, hoffset, -⟩ := Option.bind_eq_some_iff.mp h
    exact ⟨offset, hoffset, tsUtf8ByteOffset_le htext hoffset⟩
  · rintro ⟨offset, hoffset, hle⟩
    refine ⟨[(text.length, offset)], by rw [hoffset]; rfl, ?_⟩
    exact List.forall_mem_singleton.mpr hle

theorem noWrap_delete_iff {op : TsOperation} (hkind : op.kind = .delete)
    (hlt : op.pos < tsUtf8CharCount text) :
    NoWrap text op ↔ OffsetInside text (op.pos + 1) := by
  simp only [NoWrap, applyDifferences, hkind, if_neg (Nat.not_le.mpr hlt)]
  constructor
  · rintro ⟨differences, h, -⟩
    obtain ⟨bytePos, -, h⟩ := Option.bind_eq_some_iff.mp h
    obtain ⟨nextByte, hnext, -⟩ := Option.bind_eq_some_iff.mp h
    exact ⟨nextByte, hnext, tsUtf8ByteOffset_le htext hnext⟩
  · intro hinside
    obtain ⟨bytePos, hbyte, -⟩ := offsetInside_of_le htext (Nat.le_succ op.pos) hinside
    obtain ⟨nextByte, hnext, hnextLe⟩ := hinside
    have hle := tsUtf8ByteOffset_mono htext (Nat.le_succ op.pos) hbyte hnext
    refine ⟨_, by rw [hbyte, hnext]; rfl, ?_⟩
    refine List.forall_mem_cons.mpr ⟨hle, List.forall_mem_cons.mpr ⟨?_, ?_⟩⟩
    · exact sizeSub_le hle hnextLe
    · exact List.forall_mem_singleton.mpr hnextLe

/-- An operation computes its sizes without a wrap exactly when the characters up to its position, and
the one it deletes, are complete. -/
theorem noWrap_iff (op : TsOperation) :
    NoWrap text op ↔
      (op.kind = .insert → CompleteUpTo text (min op.pos (tsUtf8CharCount text))) ∧
      (op.kind = .delete → op.pos < tsUtf8CharCount text → CompleteUpTo text (op.pos + 1)) := by
  cases hkind : op.kind with
  | noop => simp [NoWrap, applyDifferences, hkind]
  | invalid => simp [NoWrap, applyDifferences, hkind]
  | insert => simp [noWrap_insert_iff htext hkind, byteOffset_inside_iff htext]
  | delete =>
    by_cases hlt : op.pos < tsUtf8CharCount text
    · simp [noWrap_delete_iff htext hkind hlt, byteOffset_inside_iff htext, hlt]
    · -- nothing is deleted behind the last character
      simp [NoWrap, applyDifferences, hkind, Nat.not_lt.mp hlt, hlt]

/-- Byte offsets stay inside a text exactly when it ends at the end of an announced character. For one
position it is enough that the characters before it are complete, and the sizes of an operation do not
wrap exactly when its own offsets are inside. -/
theorem offsets_inside_iff :
    (OffsetsInside text ↔ CompleteText text) ∧
    (∀ charPos, OffsetInside text charPos ↔ CompleteUpTo text charPos) ∧
    ∀ op, NoWrap text op ↔
      (op.kind = .insert → CompleteUpTo text (min op.pos (tsUtf8CharCount text))) ∧
      (op.kind = .delete → op.pos < tsUtf8CharCount text → CompleteUpTo text (op.pos + 1)) := by
  refine ⟨⟨fun h => ?_, fun h => ?_⟩, byteOffset_inside_iff htext, noWrap_iff htext⟩
  · exact (byteOffsets_inside_iff htext).mp h.inside
  · have hinside := (byteOffsets_inside_iff htext).mpr h
    refine ⟨hinside, fun p q offset offset' => tsUtf8ByteOffset_mono htext, fun op => ?_⟩
    have hupTo := fun n => (byteOffset_inside_iff htext n).mp (hinside n)
    exact (noWrap_iff htext op).mpr ⟨fun _ => hupTo _, fun _ _ => hupTo _⟩

end Offsets

/-- A text that is not UTF-8, but ends at the end of an announced character. -/
theorem offsets_inside_iff_broken : OffsetsInside [0xC3, 0x28, 0x80, 0x61] := by
  have htext : ∀ b ∈ ([0xC3, 0x28, 0x80, 0x61] : Bytes), b ≠ 0 := by decide
  refine (offsets_inside_iff htext).1.mpr ?_
  refine ⟨[[0xC3, 0x28], [0x80], [0x61]], ?_, rfl⟩
  intro ch hch
  simp only [List.mem_cons, List.not_mem_nil, or_false] at hch
  rcases hch with rfl | rfl | rfl <;> exact ⟨_, _, rfl, by decide⟩

/-- The file holds an `a` and the first byte of a character that needs two: the third byte offset is
looked for behind the terminator. -/
theorem not_offsetsInside_cutOff :
    tsReadFileText (some [0x61, 0xC3]) = [0x61, 0xC3] ∧ (∀ b ∈ [0x61, 0xC3], b ≠ (0 : UInt8)) ∧
      ¬ OffsetInside [0x61, 0xC3] 2 ∧ ¬ NoWrap [0x61, 0xC3] (tsOperationInit .insert 2 (bytes "x")) ∧
      ¬ OffsetsInside [0x61, 0xC3] := by
  have hoffset : tsUtf8ByteOffset [0x61, 0xC3] 2 = none := by decide
  have hsizes : applyDifferences [0x61, 0xC3] (tsOperationInit .insert 2 (bytes "x")) = none := by
    decide
  have houtside : ¬ OffsetInside [0x61, 0xC3] 2 := by
    rintro ⟨offset, h, -⟩
    rw [hoffset] at h
    cases h
  refine ⟨by decide, by decide, houtside, ?_, fun h => houtside (h.inside 2)⟩
  rintro ⟨differences, h, -⟩
  rw [hsizes] at h
  cases h

end TermSync
