namespace Tween.Text

/-- The separator controls, which count as blanks between words but not around a whole number. -/
def isSeparator (c : Char) : Bool :=
  0x1c ≤ c.toNat && c.toNat ≤ 0x1f

/-- The blanks: controls, spaces of all widths, line and paragraph ends. -/
def isBlank (c : Char) : Bool :=
  (0x09 ≤ c.toNat && c.toNat ≤ 0x0d) || isSeparator c || c.toNat = 0x20 ||
    c.toNat = 0x85 || c.toNat = 0xa0 || c.toNat = 0x1680 ||
    (0x2000 ≤ c.toNat && c.toNat ≤ 0x200a) || c.toNat = 0x2028 || c.toNat = 0x2029 ||
    c.toNat = 0x202f || c.toNat = 0x205f || c.toNat = 0x3000

def extend (c : Char) : List (List Char) → List (List Char)
  | [] => [[c]]
  | w :: ws => (c :: w) :: ws

def words : List Char → List (List Char)
  | [] => []
  | c :: rest =>
    if isBlank c then words rest
    else if rest.head?.all isBlank then [c] :: words rest
    else extend c (words rest)

theorem words_ne_nil {c : Char} (h : isBlank c = false) (t : List Char) : words (c :: t) ≠ [] := by
  rw [words, h]
  simp only [Bool.false_eq_true, if_false]
  split
  · simp
  · cases words t <;> simp [extend]

theorem words_append_blank {c : Char} (h : isBlank c = true) (x y : List Char) :
    words (x ++ c :: y) = words x ++ words y := by
  induction x with
  | nil => simp [words, h]
  | cons d x ih =>
    by_cases hd : isBlank d = true
    · simp [words, hd, ih]
    · cases x with
      | nil => simp [words, hd, h]
      | cons e x =>
        by_cases he : isBlank e = true
        · simpa [words, hd, he] using ih
        · rw [List.cons_append, words, words]
          simp only [hd, he, List.cons_append, List.head?_cons, Option.all_some, if_false,
            Bool.false_eq_true]
          rw [List.cons_append] at ih
          rw [ih]
          cases hw : words (e :: x) with
          | nil => exact absurd hw (words_ne_nil (by simpa using he) x)
          | cons w ws => rfl

theorem words_eq_singleton {w : List Char} (hne : w ≠ []) (h : ∀ c ∈ w, isBlank c = false) :
    words w = [w] := by
  induction w with
  | nil => exact absurd rfl hne
  | cons c w ih =>
    have hc := h c List.mem_cons_self
    cases w with
    | nil => simp [words, hc]
    | cons d w =>
      have hd := h d (by simp)
      rw [words, ih (by simp) fun e he => h e (List.mem_cons_of_mem _ he)]
      simp [hc, hd, extend]

def dropBlanks (text : List Char) : List Char :=
  text.dropWhile isBlank

def trim (text : List Char) : List Char :=
  (dropBlanks (dropBlanks text).reverse).reverse

end Tween.Text
