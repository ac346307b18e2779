/-!
# Blank characters

`isBlank` is the Unicode property White_Space. Blanks separate words, are skipped between tokens,
and are trimmed from lines; every other module asks this one what a blank is.
-/

namespace WeakHead.Text

/-- The twenty-five characters that have the property White_Space. -/
def isBlank (c : Char) : Bool :=
  let n := c.toNat
  (0x9 ≤ n && n ≤ 0xD) || n == 0x20 || n == 0x85 || n == 0xA0 || n == 0x1680 ||
    (0x2000 ≤ n && n ≤ 0x200A) || n == 0x2028 || n == 0x2029 || n == 0x202F || n == 0x205F ||
    n == 0x3000

/-- The text after its leading blanks. -/
def trimLeft (cs : List Char) : List Char :=
  cs.dropWhile isBlank

/-- The text before its trailing blanks. -/
def trimRight (cs : List Char) : List Char :=
  (cs.reverse.dropWhile isBlank).reverse

/-- A text with nothing but blanks, the empty text included. -/
def allBlank (cs : List Char) : Bool :=
  cs.all isBlank

/-- Nothing is left of a text exactly if it is blank. -/
theorem trimLeft_eq_nil_iff {cs : List Char} : trimLeft cs = [] ↔ allBlank cs = true := by
  induction cs with
  | nil => simp [trimLeft, allBlank]
  | cons c cs ih =>
    simp only [trimLeft, allBlank, List.dropWhile_cons, List.all_cons, Bool.and_eq_true] at ih ⊢
    by_cases hc : isBlank c = true <;> simp [hc, ih]

end WeakHead.Text
