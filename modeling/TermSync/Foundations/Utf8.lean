import TermSync.Foundations.Blocks

/-!
# UTF-8 texts as concatenations of characters

A text is the concatenation of the encodings (`String.utf8EncodeChar`) of its characters. The
encoding of a character is a block in the sense of `Foundations.Blocks`: a lead byte, from which the
length of the encoding can be read, followed by continuation bytes.
-/

namespace Foundations.Utf8

/-- Continuation bytes have the form `10xxxxxx`. -/
def continuation (b : UInt8) : Bool := b &&& 0xC0 == 0x80

/-- The number of bytes that a lead byte announces. -/
def leadLength (b : UInt8) : Nat :=
  if b < 0x80 then 1
  else if b &&& 0xE0 = 0xC0 then 2
  else if b &&& 0xF0 = 0xE0 then 3
  else if b &&& 0xF8 = 0xF0 then 4
  else 1

/-- The bytes of a sequence of characters. -/
def encode (cs : List Char) : List UInt8 := cs.flatMap String.utf8EncodeChar

theorem encode_eq_flatten (cs : List Char) :
    encode cs = (cs.map String.utf8EncodeChar).flatten := by
  simp [encode, List.flatMap_def]

@[simp] theorem encode_append (cs ds : List Char) : encode (cs ++ ds) = encode cs ++ encode ds := by
  simp [encode]

/-! ## The bytes of one character -/

theorem continuation_ofNat : ∀ n < 64, continuation (UInt8.ofNat (n + 0x80)) = true := by decide

theorem not_continuation_of_lt {b : UInt8} (hb : b < 0x80) : continuation b = false := by
  have hall : ∀ n < 128, continuation (UInt8.ofNat n) = false := by decide
  have hn := hall b.toNat (UInt8.lt_iff_toNat_lt.mp hb)
  rwa [UInt8.ofNat_toNat] at hn

theorem continuation_mod (n : Nat) : continuation (UInt8.ofNat (n % 0x40 + 0x80)) = true :=
  continuation_ofNat (n % 0x40) (Nat.mod_lt n (by decide))

theorem lead_one : ∀ n < 128, continuation (UInt8.ofNat n) = false ∧ leadLength (UInt8.ofNat n) = 1 ∧
    (n ≠ 0 → UInt8.ofNat n ≠ 0) := by decide

theorem lead_two : ∀ n < 0x20, continuation (UInt8.ofNat (n + 0xc0)) = false ∧
    leadLength (UInt8.ofNat (n + 0xc0)) = 2 ∧ UInt8.ofNat (n + 0xc0) ≠ 0 := by decide

theorem lead_three : ∀ n < 0x10, continuation (UInt8.ofNat (n + 0xe0)) = false ∧
    leadLength (UInt8.ofNat (n + 0xe0)) = 3 ∧ UInt8.ofNat (n + 0xe0) ≠ 0 := by decide

theorem lead_four : ∀ n < 0x08, continuation (UInt8.ofNat (n + 0xf0)) = false ∧
    leadLength (UInt8.ofNat (n + 0xf0)) = 4 ∧ UInt8.ofNat (n + 0xf0) ≠ 0 := by decide

/-- The encoding of a character: a lead byte that announces its length, and continuations. Only the
encoding of the NUL character contains the byte `0`. -/
theorem utf8EncodeChar_shape (c : Char) : ∃ b t, String.utf8EncodeChar c = b :: t ∧
    continuation b = false ∧ leadLength b = t.length + 1 ∧ (∀ x ∈ t, continuation x = true) ∧
    (c ≠ '\x00' → b ≠ 0) := by
  unfold String.utf8EncodeChar
  simp only
  split_ifs with h1 h2 h3
  · obtain ⟨hc, hl, hz⟩ := lead_one c.val.toNat (by omega)
    refine ⟨_, _, rfl, hc, hl, by simp, fun hne => hz fun h0 => hne ?_⟩
    exact Char.ext (UInt32.toNat_inj.mp h0)
  · obtain ⟨hc, hl, hz⟩ := lead_two (c.val.toNat / 64 % 0x20) (Nat.mod_lt _ (by decide))
    exact ⟨_, _, rfl, hc, hl, List.forall_mem_cons.mpr ⟨continuation_mod _, List.forall_mem_nil _⟩,
      fun _ => hz⟩
  · obtain ⟨hc, hl, hz⟩ := lead_three (c.val.toNat / 4096 % 0x10) (Nat.mod_lt _ (by decide))
    exact ⟨_, _, rfl, hc, hl, List.forall_mem_cons.mpr ⟨continuation_mod _,
      List.forall_mem_cons.mpr ⟨continuation_mod _, List.forall_mem_nil _⟩⟩, fun _ => hz⟩
  · obtain ⟨hc, hl, hz⟩ := lead_four (c.val.toNat / 262144 % 0x08) (Nat.mod_lt _ (by decide))
    exact ⟨_, _, rfl, hc, hl, List.forall_mem_cons.mpr ⟨continuation_mod _,
      List.forall_mem_cons.mpr ⟨continuation_mod _,
        List.forall_mem_cons.mpr ⟨continuation_mod _, List.forall_mem_nil _⟩⟩⟩, fun _ => hz⟩

theorem isBlock_utf8EncodeChar (c : Char) : IsBlock continuation (String.utf8EncodeChar c) := by
  obtain ⟨b, t, h, hb, -, ht, -⟩ := utf8EncodeChar_shape c
  exact ⟨b, t, h, hb, ht⟩

theorem isBlock_of_mem_map {cs : List Char} :
    ∀ l ∈ cs.map String.utf8EncodeChar, IsBlock continuation l := by
  intro l hl
  obtain ⟨c, -, rfl⟩ := List.mem_map.mp hl
  exact isBlock_utf8EncodeChar c

theorem utf8EncodeChar_injective : Function.Injective String.utf8EncodeChar := by
  intro c d h
  have hdec : [c].utf8Encode = [d].utf8Encode := by
    simp only [List.utf8Encode, List.flatMap_cons, List.flatMap_nil, h]
  have hc := List.utf8DecodeChar?_utf8Encode_singleton (c := c)
  rw [hdec, List.utf8DecodeChar?_utf8Encode_singleton] at hc
  exact (Option.some.inj hc).symm

/-- The characters of a text are counted by its bytes that are not continuations. -/
theorem countP_encode (cs : List Char) :
    (encode cs).countP (fun b => !continuation b) = cs.length := by
  rw [encode_eq_flatten, countP_flatten isBlock_of_mem_map, List.length_map]

/-- A lead byte is the head of one encoding length only: no encoding is an encoding followed by
something else. -/
theorem utf8EncodeChar_append_eq_nil {c d : Char} {x : List UInt8}
    (h : String.utf8EncodeChar c ++ x = String.utf8EncodeChar d) : x = [] := by
  obtain ⟨b, t, hc, -, hlc, -, -⟩ := utf8EncodeChar_shape c
  obtain ⟨b', t', hd, -, hld, -, -⟩ := utf8EncodeChar_shape d
  rw [hc, hd, List.cons_append, List.cons.injEq] at h
  obtain ⟨rfl, ht⟩ := h
  have hlen := congrArg List.length ht
  rw [List.length_append] at hlen
  exact List.length_eq_zero_iff.mp (by omega)

/-- Splicing a piece with one non-continuation byte between two texts gives a text exactly when
the piece is the encoding of one character. -/
theorem exists_char_of_splice {ps ss cs : List Char} {x : List UInt8}
    (hx : x.countP (fun b => !continuation b) = 1) (h : encode cs = encode ps ++ x ++ encode ss) :
    ∃ c, x = String.utf8EncodeChar c ∧ cs = ps ++ c :: ss := by
  rw [encode_eq_flatten, encode_eq_flatten, encode_eq_flatten] at h
  rcases splice_blocks isBlock_of_mem_map isBlock_of_mem_map isBlock_of_mem_map hx h with
    ⟨-, heq⟩ | ⟨P', q, c, k, hP, hne, -, heq⟩
  · obtain ⟨ps', rest, rfl, hps, hrest⟩ := List.map_eq_append_iff.mp heq
    obtain ⟨c, ss', rfl, hc, hss⟩ := List.map_eq_cons_iff.mp hrest
    have hinj := List.map_injective_iff.mpr utf8EncodeChar_injective
    exact ⟨c, hc.symm, by rw [hinj hps, hinj hss]⟩
  · -- the last character before the splice would be encoded as itself followed by `c`
    obtain ⟨qc, -, hqc⟩ := List.mem_map.mp (show q ∈ ps.map String.utf8EncodeChar by rw [hP]; simp)
    obtain ⟨rc, -, hrc⟩ := List.mem_map.mp
      (show q ++ c ∈ cs.map String.utf8EncodeChar by rw [heq]; simp)
    rw [← hqc] at hrc
    exact absurd (utf8EncodeChar_append_eq_nil hrc.symm) hne

/-- An ASCII byte stands only in its own character. -/
theorem utf8EncodeChar_of_mem_ascii {c : Char} {b : UInt8} (hb : b < 0x80)
    (h : b ∈ String.utf8EncodeChar c) : String.utf8EncodeChar c = [b] := by
  obtain ⟨lead, t, hc, -, hlength, hcont, -⟩ := utf8EncodeChar_shape c
  rw [hc] at h ⊢
  rcases List.mem_cons.mp h with rfl | h
  · rw [leadLength, if_pos hb] at hlength
    rw [List.length_eq_zero_iff.mp (by omega : t.length = 0)]
  · have hb' := hcont b h
    rw [not_continuation_of_lt hb] at hb'
    cases hb'

theorem notMem_utf8EncodeChar {c d : Char} {b : UInt8} (hd : String.utf8EncodeChar d = [b])
    (hb : b < 0x80) (hne : c ≠ d) : b ∉ String.utf8EncodeChar c := by
  intro h
  exact hne (utf8EncodeChar_injective ((utf8EncodeChar_of_mem_ascii hb h).trans hd.symm))

/-- The ASCII bytes of a text are counted by their characters. -/
theorem count_encode {d : Char} {b : UInt8} (hd : String.utf8EncodeChar d = [b]) (hb : b < 0x80)
    (cs : List Char) : (encode cs).count b = cs.count d := by
  induction cs with
  | nil => rfl
  | cons c cs ih =>
    have hcons : encode (c :: cs) = String.utf8EncodeChar c ++ encode cs := by simp [encode]
    rw [hcons, List.count_append, ih]
    by_cases hc : c = d
    · rw [hc, hd, List.count_cons_self, List.count_cons_self, List.count_nil]
      omega
    · rw [List.count_eq_zero_of_not_mem (notMem_utf8EncodeChar hd hb hc),
        List.count_cons_of_ne hc]
      omega

/-! ## Valid texts -/

/-- The text is the encoding of some characters. -/
def Valid (text : List UInt8) : Prop := ∃ cs, text = encode cs

theorem valid_nil : Valid [] := ⟨[], rfl⟩

theorem utf8EncodeChar_ascii : ∀ n < 128, String.utf8EncodeChar (Char.ofNat n) = [UInt8.ofNat n] := by
  decide

/-- An ASCII byte is a character of its own, so a text can be split at it. -/
theorem valid_append_cons {b : UInt8} (hb : b < 0x80) (before after : List UInt8) :
    Valid (before ++ b :: after) ↔ Valid before ∧ Valid after := by
  constructor
  · rintro ⟨cs, hcs⟩
    induction cs generalizing before with
    | nil => simp [encode] at hcs
    | cons c cs ih =>
      obtain ⟨lead, t, hc, hlead, hlength, hcont, -⟩ := utf8EncodeChar_shape c
      have hencode : encode (c :: cs) = lead :: (t ++ encode cs) := by
        simp [encode, hc]
      rw [hencode] at hcs
      cases before with
      | nil =>
        obtain ⟨rfl, hafter⟩ := List.cons.inj hcs
        rw [leadLength, if_pos hb] at hlength
        have ht : t = [] := List.length_eq_zero_iff.mp (by omega)
        subst ht
        exact ⟨valid_nil, cs, hafter⟩
      | cons x before =>
        obtain ⟨rfl, htail⟩ := List.cons.inj hcs
        rcases List.append_eq_append_iff.mp htail with ⟨u, rfl, hu⟩ | ⟨u, rfl, hu⟩
        · -- the byte would be a continuation
          cases u with
          | nil =>
            obtain ⟨-, hafter⟩ := ih [] hu
            exact ⟨⟨[c], by simp [encode, hc]⟩, hafter⟩
          | cons y u =>
            obtain ⟨rfl, -⟩ := List.cons.inj hu
            have hb' := hcont b (by simp)
            exact absurd hb' (by rw [not_continuation_of_lt hb]; decide)
        · obtain ⟨⟨ds, rfl⟩, hafter⟩ := ih u hu.symm
          exact ⟨⟨c :: ds, by simp [encode, hc]⟩, hafter⟩
  · rintro ⟨⟨cs, rfl⟩, ds, rfl⟩
    refine ⟨cs ++ Char.ofNat b.toNat :: ds, ?_⟩
    have hchar := utf8EncodeChar_ascii b.toNat (UInt8.lt_iff_toNat_lt.mp hb)
    rw [UInt8.ofNat_toNat] at hchar
    simp [encode, hchar]

theorem valid_cons {b : UInt8} (hb : b < 0x80) (text : List UInt8) :
    Valid (b :: text) ↔ Valid text := by
  rw [← List.nil_append (b :: text), valid_append_cons hb, and_iff_right valid_nil]

/-- An ASCII text is valid. -/
theorem valid_of_ascii {text : List UInt8} (h : ∀ b ∈ text, b < 0x80) : Valid text := by
  induction text with
  | nil => exact valid_nil
  | cons b text ih =>
    obtain ⟨hb, htext⟩ := List.forall_mem_cons.mp h
    exact (valid_cons hb text).mpr (ih htext)

end Foundations.Utf8
