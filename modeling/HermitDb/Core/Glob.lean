import HermitDb.Bytes

/-!
# Glob matching

Patterns are read by index, as the source reads them.  Every read carries the
proof that its index is in range, obtained from the test the source makes
before it, so the matcher cannot look outside the pattern or the string.
-/

namespace HermitDb.Core

/-- Whether plain `char` is signed, as on x86-64, or not, as on ARM64, is up to
the target. -/
inductive PlainChar where
  | signed
  | unsigned
  deriving DecidableEq

/-- `char` comparison. -/
def charLe : PlainChar → UInt8 → UInt8 → Bool
  | .signed, low, high => low.toInt8 ≤ high.toInt8
  | .unsigned, low, high => low ≤ high

/-- Where the low end of a bracket member stands: after an escaping backslash
if there is one. -/
def lowEnd (pat : Bytes) (k : Nat) (inside : k < pat.length) : Nat :=
  if pat[k] = 92 ∧ k + 1 < pat.length then k + 1 else k

theorem lowEnd_lt {pat : Bytes} {k : Nat} (inside : k < pat.length) :
    lowEnd pat k inside < pat.length := by
  unfold lowEnd
  split <;> omega

theorem le_lowEnd {pat : Bytes} {k : Nat} (inside : k < pat.length) :
    k ≤ lowEnd pat k inside := by
  unfold lowEnd
  split <;> omega

/-- The loop over the members of a bracket set that starts at `first`: whether
one of them matches and where the set closes. -/
def bracketScan (plain : PlainChar) (pat : Bytes) (letter : UInt8) (first k : Nat)
    (matched : Bool) : Bool × Option Nat :=
  if inside : k < pat.length then
    if pat[k] = 93 ∧ first < k then (matched, some k)
    else
      let low := lowEnd pat k inside
      have lowInside : low < pat.length := lowEnd_lt inside
      have later : k ≤ low := le_lowEnd inside
      if wide : low + 2 < pat.length then
        if pat[low + 1] = 45 ∧ pat[low + 2] ≠ 93 then
          bracketScan plain pat letter first (low + 3)
            (matched ||
              (charLe plain pat[low] letter && charLe plain letter pat[low + 2]))
        else
          bracketScan plain pat letter first (low + 1)
            (matched || pat[low] == letter)
      else
        bracketScan plain pat letter first (low + 1) (matched || pat[low] == letter)
  else (matched, none)
termination_by pat.length - k

/-- Match one pattern unit other than a star at `pi`; the second component is
the index after the unit.  An unclosed bracket is a literal `[`. -/
def matchUnit (plain : PlainChar) (pat : Bytes) (pi : Nat)
    (inside : pi < pat.length) (letter : UInt8) : Bool × Nat :=
  if pat[pi] = 63 then (true, pi + 1)
  else if escaped : pat[pi] = 92 ∧ pi + 1 < pat.length then
    have next : pi + 1 < pat.length := escaped.2
    (pat[pi + 1] == letter, pi + 2)
  else if pat[pi] = 91 then
    let negate := if next : pi + 1 < pat.length then pat[pi + 1] == 94 else false
    let first := if negate then pi + 2 else pi + 1
    match bracketScan plain pat letter first first false with
    | (_, none) => (letter == 91, pi + 1)
    | (matched, some close) => (if negate then !matched else matched, close + 1)
  else (pat[pi] == letter, pi + 1)

/-- The loop of `glob_match`.  `star` holds the pattern index after the last
star and the string index tried for it, which never runs ahead of `si`. -/
def globLoop (plain : PlainChar) (pat str : Bytes) (pi si : Nat)
    (star : Option (Nat × Nat)) (ordered : ∀ tried ∈ star, tried.2 ≤ si) : Bool :=
  if more : si < str.length then
    if inside : pi < pat.length then
      if pat[pi] = 42 then
        globLoop plain pat str (pi + 1) si (some (pi + 1, si)) (by simp)
      else
        match matchUnit plain pat pi inside str[si] with
        | (true, next) =>
            globLoop plain pat str next (si + 1) star
              (fun tried member => Nat.le_succ_of_le (ordered tried member))
        | (false, _) =>
            match star, ordered with
            | none, _ => false
            | some (starPi, starSi), ordered =>
                globLoop plain pat str starPi (starSi + 1) (some (starPi, starSi + 1))
                  (by simp)
    else
      match star, ordered with
      | none, _ => false
      | some (starPi, starSi), ordered =>
          globLoop plain pat str starPi (starSi + 1) (some (starPi, starSi + 1))
            (by simp)
  else (pat.drop pi).all (· == 42)
termination_by
  ((match star with
    | none => str.length + 1
    | some tried => str.length - tried.2),
    str.length - si, pat.length - pi)
decreasing_by
  · cases star with
    | none => exact Prod.Lex.left _ _ (by simp only; omega)
    | some tried =>
        have before := ordered tried rfl
        by_cases same : tried.2 = si
        · simp only [same]
          exact Prod.Lex.right _ (Prod.Lex.right _ (by omega))
        · exact Prod.Lex.left _ _ (by simp only; omega)
  · exact Prod.Lex.right _ (Prod.Lex.left _ _ (by omega))
  · have before := ordered (starPi, starSi) rfl
    exact Prod.Lex.left _ _ (by simp only at before ⊢; omega)
  · have before := ordered (starPi, starSi) rfl
    exact Prod.Lex.left _ _ (by simp only at before ⊢; omega)

def globMatch (plain : PlainChar) (pat str : Bytes) : Bool :=
  globLoop plain pat str 0 0 none (by simp)

private theorem globLoop_afterStar (plain : PlainChar) (str : Bytes) (si : Nat) :
    globLoop plain [42] str 1 si (some (1, si)) (by simp) = true := by
  induction gap : str.length - si generalizing si with
  | zero =>
      rw [globLoop, dif_neg (by omega)]
      rfl
  | succ gap induction =>
      rw [globLoop, dif_pos (by omega), dif_neg (by simp)]
      exact induction (si + 1) (by omega)

/-- The pattern `*` matches every string. -/
theorem globMatch_star (plain : PlainChar) (str : Bytes) :
    globMatch plain (ascii "*") str = true := by
  change globLoop plain [42] str 0 0 none _ = true
  rw [globLoop]
  split
  · rw [dif_pos (by simp)]
    exact globLoop_afterStar plain str 0
  · rfl

end HermitDb.Core
