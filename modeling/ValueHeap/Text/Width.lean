import ValueHeap.Text.Runs

/-!
# Display width

How many columns visible text takes on a terminal. A character takes two columns if its script writes it
wide or if it is an emoji, none if it is drawn into its neighbour, one otherwise; two Khmer signs that
stand for a group of letters take more. Some neighbours are drawn as one: lam before alef, a Lisu tone
letter before a second one, an emoji before a skin tone, and the parts of a Kirat Rai vowel.

The lists speak of visible characters only and follow Unicode 17.0.
-/

namespace ValueHeap.Text

/-! ## Single characters -/

/-- Where wideness changes. -/
def wideChanges : List Nat := [
  0x1100, 0x1161, 0x231a, 0x231c, 0x2329, 0x232b, 0x23e9, 0x23ed, 0x23f0, 0x23f1, 0x23f3, 0x23f4,
  0x25fd, 0x25ff, 0x2614, 0x2616, 0x2630, 0x2638, 0x2648, 0x2654, 0x267f, 0x2680, 0x268a, 0x2690,
  0x2693, 0x2694, 0x26a1, 0x26a2, 0x26aa, 0x26ac, 0x26bd, 0x26bf, 0x26c4, 0x26c6, 0x26ce, 0x26cf,
  0x26d4, 0x26d5, 0x26ea, 0x26eb, 0x26f2, 0x26f4, 0x26f5, 0x26f6, 0x26fa, 0x26fb, 0x26fd, 0x26fe,
  0x2705, 0x2706, 0x270a, 0x270c, 0x2728, 0x2729, 0x274c, 0x274d, 0x274e, 0x274f, 0x2753, 0x2756,
  0x2757, 0x2758, 0x2795, 0x2798, 0x27b0, 0x27b1, 0x27bf, 0x27c0, 0x2b1b, 0x2b1d, 0x2b50, 0x2b51,
  0x2b55, 0x2b56, 0x2e80, 0x303f, 0x3041, 0x3248, 0x3250, 0xa4d0, 0xa960, 0xa983, 0xac00, 0xd7b0,
  0xf900, 0xfb00, 0xfe10, 0xfe70, 0xff01, 0xff61, 0xffe0, 0xffe8, 0x16fe0, 0x1bc00, 0x1d300,
  0x1d377, 0x1f004, 0x1f005, 0x1f0cf, 0x1f0d1, 0x1f18e, 0x1f18f, 0x1f191, 0x1f19b, 0x1f200,
  0x1f321, 0x1f32d, 0x1f336, 0x1f337, 0x1f37d, 0x1f37e, 0x1f394, 0x1f3a0, 0x1f3cb, 0x1f3cf,
  0x1f3d4, 0x1f3e0, 0x1f3f1, 0x1f3f4, 0x1f3f5, 0x1f3f8, 0x1f43f, 0x1f440, 0x1f441, 0x1f442,
  0x1f4fd, 0x1f4ff, 0x1f53e, 0x1f54b, 0x1f54f, 0x1f550, 0x1f568, 0x1f57a, 0x1f57b, 0x1f595,
  0x1f597, 0x1f5a4, 0x1f5a5, 0x1f5fb, 0x1f650, 0x1f680, 0x1f6c6, 0x1f6cc, 0x1f6cd, 0x1f6d0,
  0x1f6d3, 0x1f6d5, 0x1f6e0, 0x1f6eb, 0x1f6f0, 0x1f6f4, 0x1f700, 0x1f7e0, 0x1f800, 0x1f90c,
  0x1f93b, 0x1f93c, 0x1f946, 0x1f947, 0x1fa00, 0x1fa70, 0x1fb00, 0x20000, 0x110000]

/-- Where the characters start and end that take no column: the vowel and final jamo that complete a
syllable, letters that are written on the next one, and the caret of Devanagari. -/
def overlaidChanges : List Nat := [
  0xd4e, 0xd4f, 0x1161, 0x1200, 0xa8fa, 0xa8fb, 0xd7b0, 0xd7c7, 0xd7cb, 0xd7fc, 0x111c2, 0x111c4,
  0x113d1, 0x113d2, 0x1193f, 0x11940, 0x11941, 0x11942, 0x11a84, 0x11a8a, 0x11d46, 0x11d47,
  0x11f02, 0x11f03]

/-- The columns that a character takes on its own. -/
def codeWidth (code : Nat) : Nat :=
  if code < 0x80 then 1
  else if code = 0x17a4 then 2
  else if code = 0x17d8 then 3
  else if inRuns overlaidChanges code then 0
  else if inRuns wideChanges code then 2
  else 1

/-! ## Neighbours -/

/-- Where the emoji start and end that can take a skin tone. -/
def skinChanges : List Nat := [
  0x261d, 0x261e, 0x26f9, 0x26fa, 0x270a, 0x270e, 0x1f385, 0x1f386, 0x1f3c2, 0x1f3c5, 0x1f3c7,
  0x1f3c8, 0x1f3ca, 0x1f3cd, 0x1f442, 0x1f444, 0x1f446, 0x1f451, 0x1f466, 0x1f479, 0x1f47c,
  0x1f47d, 0x1f481, 0x1f484, 0x1f485, 0x1f488, 0x1f48f, 0x1f490, 0x1f491, 0x1f492, 0x1f4aa,
  0x1f4ab, 0x1f574, 0x1f576, 0x1f57a, 0x1f57b, 0x1f590, 0x1f591, 0x1f595, 0x1f597, 0x1f645,
  0x1f648, 0x1f64b, 0x1f650, 0x1f6a3, 0x1f6a4, 0x1f6b4, 0x1f6b7, 0x1f6c0, 0x1f6c1, 0x1f6cc,
  0x1f6cd, 0x1f90c, 0x1f90d, 0x1f90f, 0x1f910, 0x1f918, 0x1f920, 0x1f926, 0x1f927, 0x1f930,
  0x1f93a, 0x1f93c, 0x1f93f, 0x1f977, 0x1f978, 0x1f9b5, 0x1f9b7, 0x1f9b8, 0x1f9ba, 0x1f9bb,
  0x1f9bc, 0x1f9cd, 0x1f9d0, 0x1f9d1, 0x1f9de, 0x1fac3, 0x1fac6, 0x1faf0, 0x1faf9]

def isSkinTone (code : Nat) : Bool := 0x1f3fb ≤ code && code ≤ 0x1f3ff

/-- The letters of the lam group. -/
def isLam (code : Nat) : Bool :=
  code ∈ [0x644, 0x6b5, 0x6b6, 0x6b7, 0x6b8, 0x76a, 0x8a6, 0x8c7]

/-- The letters of the alef group. -/
def isAlef (code : Nat) : Bool :=
  code ∈ [0x622, 0x623, 0x625, 0x627, 0x671, 0x672, 0x673, 0x675, 0x773, 0x774] ||
    (0x870 ≤ code && code ≤ 0x882)

/-- Lisu tone letters that can come first in a pair. -/
def isFirstTone (code : Nat) : Bool := 0xa4f8 ≤ code && code ≤ 0xa4fb

/-- Lisu tone letters that can come second in a pair. -/
def isSecondTone (code : Nat) : Bool := 0xa4fc ≤ code && code ≤ 0xa4fd

/-- The Kirat Rai vowel sign AA. -/
def signAA : Nat := 0x16d63

/-- The Kirat Rai vowel sign E. -/
def signE : Nat := 0x16d67

/-- The parts of a character that is measured by its parts: the compound Kirat Rai vowels. -/
def parts (code : Nat) : List Nat :=
  if code = 0x16d68 then [signE, signE]
  else if code = 0x16d69 then [signAA, signE]
  else if code = 0x16d6a then [signAA, signE, signE]
  else [code]

/-- Is `c` drawn as one with `d` after it, in the columns of `d`? -/
def joins (c d : Nat) : Bool :=
  (isAlef d && isLam c) || (isSecondTone d && isFirstTone c) || (isSkinTone d && inRuns skinChanges c) ||
    (d == signE && c == signAA)

/-- The columns that code points take, added to `front`. Two vowel signs E make one vowel. -/
def columns (front : Nat) : List Nat → Nat
  | [] => front
  | [c] => front + codeWidth c
  | c :: d :: rest =>
    if c = signE ∧ d = signE then columns (front + codeWidth c) rest
    else columns (front + if joins c d then 0 else codeWidth c) (d :: rest)

/-- The columns that the text takes. -/
def displayWidth (s : String) : Nat := columns 0 (s.toList.flatMap fun c => parts c.toNat)

end ValueHeap.Text
