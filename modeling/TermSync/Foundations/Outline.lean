import Mathlib.Data.List.Basic

/-!
# Outlines of nested texts

The coarsest view of a text with strings and braces: a string lies between quotes, a backslash in it
takes the next byte with it, and outside the strings the braces match. What stands in front of a
member of a JSON object is an outline, so the place of a member can be named without a grammar of
its other values and without a parser.

A member of an object (`Member`) stands behind the opening brace or behind a comma that is outside
of all strings and inner objects. Which bytes may stand between the tokens is a parameter.
-/

namespace Foundations

/-- What lies between the quotes of a string. -/
inductive StringBody : List UInt8 → Prop
  | nil : StringBody []
  | byte {b : UInt8} {body : List UInt8} (hquote : b ≠ 34) (hbackslash : b ≠ 92)
      (h : StringBody body) : StringBody (b :: body)
  | escape (b : UInt8) {body : List UInt8} (h : StringBody body) : StringBody (92 :: b :: body)

/-- A text with whole strings and matching braces. -/
inductive Outline : List UInt8 → Prop
  | nil : Outline []
  | byte {b : UInt8} {text : List UInt8} (hb : b ≠ 34 ∧ b ≠ 123 ∧ b ≠ 125) (h : Outline text) :
      Outline (b :: text)
  | string {body text : List UInt8} (hbody : StringBody body) (h : Outline text) :
      Outline (34 :: (body ++ 34 :: text))
  | object {inner text : List UInt8} (hinner : Outline inner) (h : Outline text) :
      Outline (123 :: (inner ++ 125 :: text))

theorem StringBody.of_plain {body : List UInt8} (h : ∀ b ∈ body, b ≠ 34 ∧ b ≠ 92) :
    StringBody body := by
  induction body with
  | nil => exact StringBody.nil
  | cons b body ih =>
    obtain ⟨hquote, hbackslash⟩ := h b List.mem_cons_self
    exact StringBody.byte hquote hbackslash (ih fun c hc => h c (List.mem_cons_of_mem b hc))

section Member

variable (space : UInt8 → Bool)

/-- Nothing but space. -/
def Blank (text : List UInt8) : Prop := ∀ b ∈ text, space b = true

/-- What stands between the opening brace of an object and one of its members: nothing, or other
members and a comma. -/
def BeforeMember (front : List UInt8) : Prop :=
  Blank space front ∨
    ∃ others gap, Outline others ∧ Blank space gap ∧ front = others ++ 44 :: gap

/-- The text is an object with a member `key` whose value begins with `value`; `front` stands
between the opening brace and the member. -/
structure Member (key front value text : List UInt8) : Prop where
  before : BeforeMember space front
  written : ∃ gap gap', Blank space gap ∧ Blank space gap' ∧
    text = 123 :: (front ++ 34 :: (key ++ 34 :: (gap ++ 58 :: (gap' ++ value))))

variable {space}

/-- The byte in front of a member is the opening brace, a comma or space. -/
theorem BeforeMember.last {front p : List UInt8} {b : UInt8} (h : BeforeMember space front)
    (heq : 123 :: front = p ++ [b]) : b = 123 ∨ b = 44 ∨ space b = true := by
  rcases List.eq_nil_or_concat front with rfl | ⟨front', c, rfl⟩
  · have hsingle : p ++ [b] = [] ++ [123] := heq.symm
    exact Or.inl (List.cons.inj (List.append_inj' hsingle rfl).2).1
  · rw [List.concat_eq_append, ← List.cons_append] at heq
    obtain rfl : c = b := (List.cons.inj (List.append_inj' heq rfl).2).1
    rcases h with hblank | ⟨others, gap, -, hgap, hfront⟩
    · exact Or.inr (Or.inr (hblank c (by simp)))
    · rcases List.eq_nil_or_concat gap with rfl | ⟨gap', d, rfl⟩
      · rw [List.concat_eq_append] at hfront
        exact Or.inr (Or.inl (List.cons.inj (List.append_inj' hfront rfl).2).1)
      · rw [List.concat_eq_append, List.concat_eq_append, ← List.cons_append,
          ← List.append_assoc] at hfront
        rw [(List.cons.inj (List.append_inj' hfront rfl).2).1]
        exact Or.inr (Or.inr (hgap d (by simp)))

end Member

end Foundations
