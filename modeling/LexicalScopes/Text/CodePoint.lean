/-!
# Code points of a text

A text is a sequence of code points, among them halves of surrogate pairs, which are no characters.
A half may stand alone or beside the other half of its pair, and two halves side by side are not the
character that they would make together. A `String` keeps a half as its *stand-in*, the private-use
character 0x100000 above it. The characters that are needed for this are kept as pairs of further
private-use characters, those 0xF0000 above the two halves of the character, and so are these in
turn. Nothing else is kept as characters of the latter range, so the code points can be read back,
from a text that is made of several texts as well.
-/

namespace LexicalScopes.Text

/-! ## Halves -/

/-- The first half of a surrogate pair. -/
def isHigh (code : Nat) : Bool := 0xD800 ≤ code && code < 0xDC00

/-- The second half of a surrogate pair. -/
def isLow (code : Nat) : Bool := 0xDC00 ≤ code && code < 0xE000

/-- One half of a surrogate pair. -/
def isHalf (code : Nat) : Bool := isHigh code || isLow code

theorem isHigh_iff {code : Nat} : isHigh code ↔ 0xD800 ≤ code ∧ code < 0xDC00 := by simp [isHigh]

theorem isLow_iff {code : Nat} : isLow code ↔ 0xDC00 ≤ code ∧ code < 0xE000 := by simp [isLow]

theorem isHalf_iff {code : Nat} : isHalf code ↔ 0xD800 ≤ code ∧ code < 0xE000 := by
  rw [isHalf, Bool.or_eq_true, isHigh_iff, isLow_iff]
  omega

/-- The code point that two halves make together. -/
def joined (high low : Nat) : Nat := 0x10000 + (high - 0xD800) * 0x400 + (low - 0xDC00)

/-- The first half of a code point above U+FFFF. -/
def highOf (code : Nat) : Nat := 0xD800 + (code - 0x10000) / 0x400

/-- The second half of a code point above U+FFFF. -/
def lowOf (code : Nat) : Nat := 0xDC00 + (code - 0x10000) % 0x400

theorem joined_highOf_lowOf {code : Nat} (h : 0x10000 ≤ code) :
    joined (highOf code) (lowOf code) = code := by
  unfold joined highOf lowOf
  omega

theorem joined_lt {high low : Nat} (hhigh : isHigh high) (hlow : isLow low) :
    joined high low < 0x110000 := by
  rw [isHigh_iff] at hhigh
  rw [isLow_iff] at hlow
  unfold joined
  omega

theorem isHigh_highOf {code : Nat} (h : 0x10000 ≤ code) (hcode : code < 0x110000) :
    isHigh (highOf code) := by
  rw [isHigh_iff, highOf]
  omega

theorem isLow_lowOf (code : Nat) : isLow (lowOf code) := by
  rw [isLow_iff, lowOf]
  omega

/-! ## Keeping code points -/

/-- The distance from a half to its stand-in. -/
def standInDistance : Nat := 0x100000

/-- The distance from a half of a character to its part in the pair that keeps the character. -/
def pairDistance : Nat := 0xF0000

/-- The code point is one of those with which others are kept. -/
def isReserved (code : Nat) : Bool :=
  isHalf (code - standInDistance) || isHalf (code - pairDistance)

/-- The character stands for half of a pair. -/
def isStandIn (c : Char) : Bool := isReserved c.toNat

/-- The characters that keep a code point. -/
def charsOf (code : Nat) : List Char :=
  if isHalf code then [Char.ofNat (code + standInDistance)]
  else if isReserved code then
    [Char.ofNat (highOf code + pairDistance), Char.ofNat (lowOf code + pairDistance)]
  else [Char.ofNat code]

/-- The text with the given code points. -/
def ofCodes (codes : List Nat) : String := String.ofList (codes.flatMap charsOf)

/-! ## Reading code points -/

/-- The half that a character stands for, or else its own code point. -/
def codeOf (c : Char) : Nat :=
  if isHalf (c.toNat - standInDistance) then c.toNat - standInDistance
  else if isHalf (c.toNat - pairDistance) then c.toNat - pairDistance
  else c.toNat

/-- The character is the first part of a pair that keeps a character. -/
def opensPair (c : Char) : Bool := isHigh (c.toNat - pairDistance)

/-- The character is the second part of a pair that keeps a character. -/
def closesPair (c : Char) : Bool := isLow (c.toNat - pairDistance)

/-- The code points that some characters keep. -/
def codesOf : List Char → List Nat
  | [] => []
  | [c] => [codeOf c]
  | c :: d :: rest =>
    if opensPair c && closesPair d then joined (codeOf c) (codeOf d) :: codesOf rest
    else codeOf c :: codesOf (d :: rest)

/-- The code points of a text. -/
def codes (s : String) : List Nat := codesOf s.toList

/-! ## Reading back what is kept -/

theorem toNat_ofNat {n : Nat} (h : n < 0x110000) (hn : ¬isHalf n) : (Char.ofNat n).toNat = n := by
  rw [isHalf_iff] at hn
  have hv : n.isValidChar := by
    unfold Nat.isValidChar
    omega
  rw [Char.ofNat, dif_pos hv]
  rfl

theorem toNat_lt (c : Char) : c.toNat < 0x110000 := by
  rcases c.valid with h | ⟨-, h⟩
  · exact Nat.lt_trans h (by decide)
  · exact h

theorem isHalf_toNat (c : Char) : isHalf c.toNat = false := by
  rw [Bool.eq_false_iff, ne_eq, isHalf_iff]
  rcases c.valid with h | ⟨h, -⟩
  · exact fun hc => Nat.not_lt.2 hc.1 h
  · exact fun hc => Nat.not_lt.2 h hc.2

theorem codeOf_eq_toNat {c : Char} (h : ¬isStandIn c) : codeOf c = c.toNat := by
  rw [isStandIn, isReserved, Bool.or_eq_true, not_or] at h
  rw [codeOf, if_neg h.1, if_neg h.2]

theorem codeOf_ofNat {code : Nat} (h : code < 0x110000) (hhalf : ¬isHalf code)
    (hreserved : ¬isReserved code) : codeOf (Char.ofNat code) = code := by
  have hstandIn : ¬isStandIn (Char.ofNat code) := by rwa [isStandIn, toNat_ofNat h hhalf]
  rw [codeOf_eq_toNat hstandIn, toNat_ofNat h hhalf]

section distance

variable {half : Nat} (h : isHalf half)

include h

theorem toNat_standIn : (Char.ofNat (half + standInDistance)).toNat = half + standInDistance := by
  rw [isHalf_iff] at h
  refine toNat_ofNat ?_ ?_ <;> simp only [isHalf_iff, standInDistance] <;> omega

theorem codeOf_standIn : codeOf (Char.ofNat (half + standInDistance)) = half := by
  rw [codeOf, toNat_standIn h, Nat.add_sub_cancel, if_pos h]

theorem opensPair_standIn : opensPair (Char.ofNat (half + standInDistance)) = false := by
  rw [opensPair, toNat_standIn h, Bool.eq_false_iff, ne_eq, isHigh_iff]
  rw [isHalf_iff] at h
  simp only [standInDistance, pairDistance]
  omega

theorem toNat_paired : (Char.ofNat (half + pairDistance)).toNat = half + pairDistance := by
  rw [isHalf_iff] at h
  refine toNat_ofNat ?_ ?_ <;> simp only [isHalf_iff, pairDistance] <;> omega

theorem codeOf_paired : codeOf (Char.ofNat (half + pairDistance)) = half := by
  have hstandIn : ¬isHalf (half + pairDistance - standInDistance) := by
    rw [isHalf_iff] at h ⊢
    simp only [standInDistance, pairDistance]
    omega
  rw [codeOf, toNat_paired h, if_neg hstandIn, Nat.add_sub_cancel, if_pos h]

end distance

theorem codesOf_cons {c : Char} (h : opensPair c = false) (rest : List Char) :
    codesOf (c :: rest) = codeOf c :: codesOf rest := by
  cases rest with
  | nil => simp [codesOf]
  | cons d rest => rw [codesOf, h, Bool.false_and, if_neg Bool.false_ne_true]

/-- A code point is read back from the characters that keep it, whatever comes after them. -/
theorem codesOf_charsOf_append {code : Nat} (h : code < 0x110000) (rest : List Char) :
    codesOf (charsOf code ++ rest) = code :: codesOf rest := by
  unfold charsOf
  split
  · next hhalf =>
    rw [List.singleton_append, codesOf_cons (opensPair_standIn hhalf), codeOf_standIn hhalf]
  · next hhalf =>
    split
    · next hreserved =>
      have hlarge : 0x10000 ≤ code := by
        simp only [isReserved, Bool.or_eq_true, isHalf_iff, standInDistance, pairDistance]
          at hreserved
        omega
      have hhigh := isHigh_highOf hlarge h
      have hlow := isLow_lowOf code
      have hhighHalf : isHalf (highOf code) := by simp [isHalf, hhigh]
      have hlowHalf : isHalf (lowOf code) := by simp [isHalf, hlow]
      rw [List.cons_append, List.singleton_append, codesOf, opensPair, closesPair,
        toNat_paired hhighHalf, toNat_paired hlowHalf, Nat.add_sub_cancel, Nat.add_sub_cancel,
        hhigh, hlow, codeOf_paired hhighHalf, codeOf_paired hlowHalf, joined_highOf_lowOf hlarge]
      rfl
    · next hreserved =>
      have hopens : opensPair (Char.ofNat code) = false := by
        rw [opensPair, toNat_ofNat h hhalf, Bool.eq_false_iff]
        intro hhigh
        exact hreserved (by simp [isReserved, isHalf, hhigh])
      rw [List.singleton_append, codesOf_cons hopens, codeOf_ofNat h hhalf hreserved]

/-- The code points of a text are read back before those of any other text. -/
theorem codes_ofCodes_append {points : List Nat} (h : ∀ code ∈ points, code < 0x110000)
    (s : String) : codes (ofCodes points ++ s) = points ++ codes s := by
  rw [codes, ofCodes, String.toList_append, String.toList_ofList, codes]
  induction points with
  | nil => rfl
  | cons code points ih =>
    rw [List.forall_mem_cons] at h
    rw [List.flatMap_cons, List.append_assoc, codesOf_charsOf_append h.1, ih h.2, List.cons_append]

theorem codes_ofCodes {points : List Nat} (h : ∀ code ∈ points, code < 0x110000) :
    codes (ofCodes points) = points := by
  have happend := codes_ofCodes_append h ""
  rwa [String.append_empty, show codes "" = [] from rfl, List.append_nil] at happend

theorem codeOf_lt (c : Char) : codeOf c < 0x110000 := by
  have := toNat_lt c
  unfold codeOf
  split
  · omega
  · split <;> omega

theorem codeOf_of_isHalf_sub {c : Char} (h : isHalf (c.toNat - pairDistance)) :
    codeOf c = c.toNat - pairDistance := by
  have hstandIn : ¬isHalf (c.toNat - standInDistance) := by
    rw [isHalf_iff] at h ⊢
    simp only [standInDistance, pairDistance] at h ⊢
    omega
  rw [codeOf, if_neg hstandIn, if_pos h]

theorem codesOf_lt (cs : List Char) : ∀ code ∈ codesOf cs, code < 0x110000 := by
  fun_induction codesOf cs with
  | case1 => simp
  | case2 c => simpa using codeOf_lt c
  | case3 c d rest hpair ih =>
    obtain ⟨hhigh, hlow⟩ := Bool.and_eq_true_iff.1 hpair
    rw [opensPair] at hhigh
    rw [closesPair] at hlow
    rw [codeOf_of_isHalf_sub (by simp [isHalf, hhigh]),
      codeOf_of_isHalf_sub (by simp [isHalf, hlow]), List.forall_mem_cons]
    exact ⟨joined_lt hhigh hlow, ih⟩
  | case4 c d rest hpair ih => simpa using ⟨codeOf_lt c, ih⟩

/-! ## Text of characters alone -/

/-- The text as it is stored outside: every character as itself. Half of a pair cannot be stored. -/
def plain? (s : String) : Option String :=
  let points := codes s
  if points.any isHalf then none else some (String.ofList (points.map Char.ofNat))

/-- What is stored of a text has the code points of the text. -/
theorem plain?_eq_some_iff {s plain : String} :
    plain? s = some plain ↔ plain.toList.map Char.toNat = codes s := by
  unfold plain?
  dsimp only
  constructor
  · intro h
    split at h
    · cases h
    · next hhalf =>
      cases h
      rw [Bool.not_eq_true, List.any_eq_false] at hhalf
      rw [String.toList_ofList, List.map_map]
      refine (List.map_congr_left fun code hcode => ?_).trans (List.map_id _)
      exact toNat_ofNat (codesOf_lt _ code hcode) (hhalf code hcode)
  · intro h
    rw [← h, if_neg]
    · simp [Function.comp_def]
    · simp [isHalf_toNat]

/-- Two halves side by side are not the character that they would make together. -/
example : plain? (ofCodes [0xD83D, 0xDE00]) = none ∧
    (plain? (ofCodes [0x1F600])).isSome = true := by decide

/-- Keep a text that comes from outside. -/
def ofPlain (s : String) : String := ofCodes (s.toList.map Char.toNat)

theorem codes_ofPlain (s : String) : codes (ofPlain s) = s.toList.map Char.toNat :=
  codes_ofCodes fun code hcode => by
    obtain ⟨c, -, rfl⟩ := List.mem_map.1 hcode
    exact toNat_lt c

/-- A text that comes from outside is stored as it was. -/
theorem plain?_ofPlain (s : String) : plain? (ofPlain s) = some s :=
  plain?_eq_some_iff.2 (codes_ofPlain s).symm

/-- The pieces of a text that hold one code point each. -/
def singles (s : String) : List String := (codes s).map fun code => ofCodes [code]

end LexicalScopes.Text
