import TermSync.Line
import TermSync.Proofs.CStringProofs
import TermSync.Proofs.EscapeProofs

/-!
# Proofs: searching an encoded line

`find_key` looks for the text of a key. On a rendered list of tokens it finds the first field with
that key: a quote inside a string is escaped, so the text of a key can only appear at the end of a
string value, where no colon follows.
-/

namespace TermSync

open Foundations

/-- The search for `pattern` in `text` ends with `r`, for every sufficient number of rounds. -/
def Finds (pattern text : Bytes) (r : Option Bytes) : Prop :=
  ∀ fuel, text.length < fuel → findKeyLoop pattern fuel text = r

/-! ## One step of the search -/

theorem finds_nil {pattern : Bytes} (h : pattern ≠ []) : Finds pattern [] none := by
  intro fuel _
  cases fuel with
  | zero => rfl
  | succ fuel => simp [findKeyLoop, strstr, h]

theorem Finds.skip {pattern text : Bytes} {b : UInt8} {r : Option Bytes}
    (hb : ¬ pattern <+: b :: text) (h : Finds pattern text r) : Finds pattern (b :: text) r := by
  intro fuel hfuel
  have hrec := h fuel (by rw [List.length_cons] at hfuel; omega)
  have hstr : strstr pattern (b :: text) = strstr pattern text := by
    rw [strstr, if_neg (by rwa [List.isPrefixOf_iff_prefix])]
  cases fuel with
  | zero => exact hrec
  | succ fuel => rwa [findKeyLoop, hstr]

theorem strstr_append {pattern : Bytes} (h : pattern ≠ []) (text : Bytes) :
    strstr pattern (pattern ++ text) = some (pattern ++ text) := by
  obtain ⟨b, t, rfl⟩ := List.exists_cons_of_ne_nil h
  rw [List.cons_append, strstr, if_pos]
  rw [List.isPrefixOf_iff_prefix, ← List.cons_append]
  exact List.prefix_append _ _

/-- An occurrence that no colon follows is passed over. -/
theorem Finds.pass {pattern text : Bytes} {r : Option Bytes} (hp : pattern ≠ [])
    (hcolon : (skipWs text).head? ≠ some 58) (h : Finds pattern text r) :
    Finds pattern (pattern ++ text) r := by
  intro fuel hfuel
  have hpos := List.length_pos_iff.mpr hp
  rw [List.length_append] at hfuel
  cases fuel with
  | zero => omega
  | succ fuel =>
    simp only [findKeyLoop, strstr_append hp, List.drop_left]
    rw [if_neg hcolon]
    exact h fuel (by omega)

/-- An occurrence that a colon follows ends the search. -/
theorem finds_colon {pattern after text : Bytes} (hp : pattern ≠ [])
    (hskip : skipWs after = 58 :: text) : Finds pattern (pattern ++ after) (some (skipWs text)) := by
  intro fuel hfuel
  cases fuel with
  | zero => omega
  | succ fuel =>
    simp only [findKeyLoop, strstr_append hp, List.drop_left, hskip]
    rw [List.head?_cons, if_pos rfl, List.tail_cons]

/-! ## Keys -/

/-- The bytes of a key are neither quotes nor backslashes nor marks. -/
def PlainKey (key : Bytes) : Prop :=
  ∀ b ∈ key, b ≠ 34 ∧ b ≠ 92 ∧ b ≠ 44 ∧ b ≠ 58 ∧ b ≠ 125

instance (key : Bytes) : Decidable (PlainKey key) := inferInstanceAs (Decidable (∀ b ∈ key, _))

theorem Key.plain (key : Key) : PlainKey key.name := by
  cases key <;> decide

theorem Key.name_ne_nil (key : Key) : key.name ≠ [] := by
  cases key <;> decide

theorem Key.name_injective : Function.Injective Key.name := by
  intro a b h
  cases a <;> cases b <;> first | rfl | exact absurd h (by decide)

theorem Key.pattern_ne_nil (key : Key) : key.pattern ≠ [] := List.cons_ne_nil _ _

theorem Key.snprintf_pattern (key : Key) :
    snprintf 96 (TermSync.bytes "\"" ++ key.name ++ TermSync.bytes "\"") = key.pattern := by
  cases key <;> decide

theorem findKey_eq_of_finds {key : Key} {text : Bytes} {r : Option Bytes}
    (h : Finds key.pattern text r) : findKey text key.name = r := by
  rw [findKey, key.snprintf_pattern]
  exact h _ (Nat.lt_succ_self _)

section Search

variable {key : Key} {r : Option Bytes}

theorem Finds.of_ne_quote {text : Bytes} {b : UInt8} (hb : b ≠ 34)
    (h : Finds key.pattern text r) : Finds key.pattern (b :: text) r := by
  refine h.skip fun hpre => hb ?_
  rw [Key.pattern, List.cons_prefix_cons] at hpre
  exact hpre.1.symm

theorem Finds.append_of_ne_quote {l text : Bytes} (hl : ∀ b ∈ l, b ≠ 34)
    (h : Finds key.pattern text r) : Finds key.pattern (l ++ text) r := by
  induction l with
  | nil => exact h
  | cons b l ih =>
    exact Finds.of_ne_quote (hl b List.mem_cons_self)
      (ih fun c hc => hl c (List.mem_cons_of_mem b hc))

/-- A quote that a byte follows which begins no key is passed over. -/
theorem Finds.quote {text : Bytes} {b : UInt8} (hb : b = 34 ∨ b = 44 ∨ b = 58 ∨ b = 125)
    (h : Finds key.pattern (b :: text) r) : Finds key.pattern (34 :: b :: text) r := by
  refine h.skip fun hpre => ?_
  obtain ⟨k, name, hname⟩ := List.exists_cons_of_ne_nil key.name_ne_nil
  have hplain := key.plain k (by rw [hname]; exact List.mem_cons_self)
  rw [Key.pattern, hname, List.cons_prefix_cons, List.cons_append, List.cons_prefix_cons] at hpre
  obtain ⟨-, rfl, -⟩ := hpre
  rcases hb with rfl | rfl | rfl | rfl
  · exact hplain.1 rfl
  · exact hplain.2.2.1 rfl
  · exact hplain.2.2.2.1 rfl
  · exact hplain.2.2.2.2 rfl

end Search

/-! ## Strings -/

/-- If a key fits to the rest of a string up to its closing quote, then it is the rest. -/
theorem jsonEscape_eq_of_prefixes {name v rest : Bytes} (hname : ∀ b ∈ name, b ≠ 34 ∧ b ≠ 92)
    (h : name ++ [34] <+: jsonEscape v ++ 34 :: rest) : jsonEscape v = name := by
  induction v generalizing name with
  | nil =>
    cases name with
    | nil => rfl
    | cons b name =>
      rw [jsonEscape, List.flatMap_nil, List.nil_append, List.cons_append,
        List.cons_prefix_cons] at h
      exact absurd h.1 (hname b List.mem_cons_self).1
  | cons c v ih =>
    rw [jsonEscape_cons] at h ⊢
    rcases escapeByte_eq_cons c with ⟨t, ht⟩ | ⟨hc, hne⟩
    · exfalso
      rw [ht] at h
      cases name with
      | nil =>
        rw [List.nil_append, List.cons_append, List.cons_append, List.cons_prefix_cons] at h
        exact absurd h.1 (by decide)
      | cons b name =>
        rw [List.cons_append, List.cons_append, List.cons_append, List.cons_prefix_cons] at h
        exact (hname b List.mem_cons_self).2 h.1
    · rw [hc] at h ⊢
      cases name with
      | nil =>
        exfalso
        rw [List.nil_append, List.singleton_append, List.cons_append, List.cons_prefix_cons] at h
        exact hne.1 h.1.symm
      | cons b name =>
        rw [List.cons_append, List.singleton_append, List.cons_append, List.cons_prefix_cons] at h
        obtain ⟨rfl, hpre⟩ := h
        rw [List.singleton_append, ih (fun d hd => hname d (List.mem_cons_of_mem b hd)) hpre]

theorem head?_skipWs_ne_colon {rest : Bytes} (h : rest.head? = some 44 ∨ rest.head? = some 125) :
    (skipWs rest).head? ≠ some 58 := by
  cases rest with
  | nil => simp at h
  | cons b rest =>
    simp only [List.head?_cons, Option.some.injEq] at h
    rcases h with rfl | rfl <;> simp [skipWs, isSpace]

/-- A string value is passed over, from its opening quote on and from anywhere inside it. -/
theorem Finds.string {key : Key} {r : Option Bytes} {rest : Bytes}
    (hrest : rest.head? = some 44 ∨ rest.head? = some 125) (h : Finds key.pattern rest r)
    (v : Bytes) :
    Finds key.pattern (jsonEscape v ++ 34 :: rest) r ∧
      Finds key.pattern (34 :: (jsonEscape v ++ 34 :: rest)) r := by
  have hplain : ∀ b ∈ key.name, b ≠ 34 ∧ b ≠ 92 := fun b hb =>
    ⟨(key.plain b hb).1, (key.plain b hb).2.1⟩
  induction v with
  | nil =>
    obtain ⟨b, rest, rfl⟩ : ∃ b t, rest = b :: t := by
      cases rest with
      | nil => simp at hrest
      | cons b t => exact ⟨b, t, rfl⟩
    simp only [List.head?_cons, Option.some.injEq] at hrest
    have hclose : Finds key.pattern (34 :: b :: rest) r :=
      Finds.quote (by rcases hrest with rfl | rfl <;> simp) h
    exact ⟨hclose, Finds.quote (Or.inl rfl) hclose⟩
  | cons c v ih =>
    have hinside : Finds key.pattern (jsonEscape (c :: v) ++ 34 :: rest) r := by
      rw [jsonEscape_cons, List.append_assoc]
      by_cases hc : c = 34
      · -- an escaped quote may begin the text of the key
        subst hc
        exact Finds.of_ne_quote (by decide) ih.2
      · exact Finds.append_of_ne_quote (notMem_quote_escapeByte hc) ih.1
    refine ⟨hinside, ?_⟩
    by_cases hpre : key.pattern <+: 34 :: (jsonEscape (c :: v) ++ 34 :: rest)
    · rw [Key.pattern, List.cons_prefix_cons] at hpre
      have heq := jsonEscape_eq_of_prefixes hplain hpre.2
      have htext : 34 :: (jsonEscape (c :: v) ++ 34 :: rest) = key.pattern ++ rest := by
        simp [Key.pattern, heq]
      rw [htext]
      exact Finds.pass key.pattern_ne_nil (head?_skipWs_ne_colon hrest) h
    · exact Finds.skip hpre hinside

/-! ## Tokens -/

theorem render_cons (t : Token) (ts : List Token) : render (t :: ts) = t.bytes ++ render ts :=
  List.flatMap_cons

theorem render_append (ts us : List Token) : render (ts ++ us) = render ts ++ render us :=
  List.flatMap_append

theorem head?_render_of_atMark {ts : List Token} (h : AtMark ts) :
    (render ts).head? = some 44 ∨ (render ts).head? = some 125 := by
  match ts, h with
  | .punct b :: ts, h =>
    rcases h with rfl | rfl
    · exact Or.inl rfl
    · exact Or.inr rfl

/-- A key that fits to another key is that key. -/
theorem key_eq_of_prefixes {key key' : Key} {rest : Bytes}
    (h : key.pattern <+: 34 :: (key'.name ++ 34 :: rest)) : key = key' := by
  have aux : ∀ {l m : Bytes}, (∀ b ∈ l, b ≠ 34) → (∀ b ∈ m, b ≠ 34) →
      l ++ [34] <+: m ++ 34 :: rest → l = m := by
    intro l
    induction l with
    | nil =>
      intro m _ hm hpre
      cases m with
      | nil => rfl
      | cons b m =>
        rw [List.nil_append, List.cons_append, List.cons_prefix_cons] at hpre
        exact absurd hpre.1.symm (hm b List.mem_cons_self)
    | cons a l ih =>
      intro m hl hm hpre
      cases m with
      | nil =>
        rw [List.nil_append, List.cons_append, List.cons_prefix_cons] at hpre
        exact absurd hpre.1 (hl a List.mem_cons_self)
      | cons b m =>
        rw [List.cons_append, List.cons_append, List.cons_prefix_cons] at hpre
        rw [hpre.1, ih (fun c hc => hl c (List.mem_cons_of_mem a hc))
          (fun c hc => hm c (List.mem_cons_of_mem b hc)) hpre.2]
  rw [Key.pattern, List.cons_prefix_cons] at h
  exact Key.name_injective (aux (fun b hb => (key.plain b hb).1) (fun b hb => (key'.plain b hb).1)
    h.2)

theorem length_kindName_le (kind : TsOpKind) : (tsOperationKindName kind).length ≤ 7 := by
  cases kind <;> decide

theorem formatSize_ne_quote (n : ℕ) : ∀ b ∈ formatSize n, b ≠ 34 := by
  rintro b hb rfl
  exact absurd (Decimal.isDigit_of_mem_digits n 34 hb) (by decide)

/-- The value of a field is passed over. -/
theorem Finds.value {key : Key} {r : Option Bytes} {ts : List Token} {value : Value}
    (hmark : value ≠ .brace → AtMark ts) (h : Finds key.pattern (render ts) r) :
    Finds key.pattern (value.bytes ++ render ts) r := by
  cases value with
  | str v =>
    have := (h.string (head?_render_of_atMark (hmark (by simp))) v).2
    simpa [Value.bytes] using this
  | num n => exact Finds.append_of_ne_quote (formatSize_ne_quote n) h
  | brace => exact Finds.of_ne_quote (by decide) h
  | missing => exact h

/-- A field with another key is passed over. -/
theorem Finds.field {key key' : Key} {r : Option Bytes} {ts : List Token} {value : Value}
    (hne : key' ≠ key) (hmark : value ≠ .brace → AtMark ts) (h : Finds key.pattern (render ts) r) :
    Finds key.pattern (render (.field key' value :: ts)) r := by
  have hvalue : Finds key.pattern (58 :: (value.bytes ++ render ts)) r :=
    Finds.of_ne_quote (by decide) (Finds.value hmark h)
  have hname := Finds.append_of_ne_quote (fun b hb => (key'.plain b hb).1)
    (Finds.quote (Or.inr (Or.inr (Or.inl rfl))) hvalue)
  have hskip := hname.skip fun hpre => hne (key_eq_of_prefixes hpre).symm
  simpa [render_cons, Token.bytes] using hskip

theorem skipWs_value {value : Value} {ts : List Token} (hmark : value ≠ .brace → AtMark ts) :
    skipWs (value.bytes ++ render ts) = value.bytes ++ render ts := by
  have hcons : ∀ {b : UInt8} {t : Bytes}, isSpace b = false → skipWs (b :: t) = b :: t := by
    intro b t hb
    simp [skipWs, hb]
  cases value with
  | str v => exact hcons (by decide)
  | num n =>
    obtain ⟨b, t, hbt, hb⟩ := Decimal.digits_eq_cons n
    simp only [Value.bytes, formatSize, hbt, List.cons_append]
    exact hcons (isDigit_ne hb).1
  | brace => exact hcons (by decide)
  | missing =>
    rcases head?_render_of_atMark (hmark (by simp)) with h | h <;>
      (cases hts : render ts with
      | nil => simp [hts] at h
      | cons b t =>
        rw [hts, List.head?_cons, Option.some.injEq] at h
        simp only [Value.bytes, List.nil_append]
        exact hcons (by rw [h]; decide))

/-- Tokens without the key are passed over. -/
theorem Finds.tokens {key : Key} {r : Option Bytes} {pre ts : List Token} (hc : Closed (pre ++ ts))
    (hpre : ∀ t ∈ pre, t.has key = false) (h : Finds key.pattern (render ts) r) :
    Finds key.pattern (render (pre ++ ts)) r := by
  induction pre with
  | nil => exact h
  | cons t pre ih =>
    have hrest : ∀ u ∈ pre, u.has key = false := fun u hu => hpre u (List.mem_cons_of_mem t hu)
    cases t with
    | punct b =>
      rw [List.cons_append, render_cons]
      exact Finds.of_ne_quote hc.1 (ih hc.2 hrest)
    | field key' value =>
      have hne : key' ≠ key := by
        simpa [Token.has] using hpre _ List.mem_cons_self
      exact Finds.field hne hc.1 (ih hc.2 hrest)

/-- The search fails on tokens without the key. -/
theorem findKey_none {key : Key} {ts : List Token} (hc : Closed ts)
    (hts : ∀ t ∈ ts, t.has key = false) : findKey (render ts) key.name = none := by
  rw [← List.append_nil ts] at hc ⊢
  exact findKey_eq_of_finds (Finds.tokens hc hts (finds_nil key.pattern_ne_nil))

theorem closed_of_append {pre ts : List Token} (h : Closed (pre ++ ts)) : Closed ts := by
  induction pre with
  | nil => exact h
  | cons t pre ih =>
    cases t with
    | punct b => exact ih h.2
    | field key value => exact ih h.2

/-- The search ends at the first field with the key. -/
theorem findKey_field {key : Key} {value : Value} {pre post : List Token}
    (hc : Closed (pre ++ .field key value :: post)) (hpre : ∀ t ∈ pre, t.has key = false) :
    findKey (render (pre ++ .field key value :: post)) key.name =
      some (value.bytes ++ render post) := by
  have hmark := (closed_of_append hc).1
  refine findKey_eq_of_finds (Finds.tokens hc hpre ?_)
  have hcolon : skipWs (58 :: (value.bytes ++ render post)) = 58 :: (value.bytes ++ render post) := by
    simp [skipWs, isSpace]
  have hfound := finds_colon key.pattern_ne_nil hcolon
  rw [skipWs_value hmark] at hfound
  simpa [render_cons, Token.bytes, Key.pattern] using hfound

end TermSync
