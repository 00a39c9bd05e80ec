import HermitDb.Core.Db
import HermitDb.Library.StarPattern

/-!
# What a glob pattern means

A pattern is read from left to right as stars and units; where a unit ends does
not depend on the letter it is tried on.  The matcher works on indices and goes
back to the last star only.  It decides whether the key can be divided among
the pieces of the pattern.
-/

namespace HermitDb.Core

open Library

/-! ## Reading a pattern -/

inductive SetMember where
  | single (own : UInt8)
  | range (low high : UInt8)

def SetMember.accepts (plain : PlainChar) : SetMember → UInt8 → Bool
  | .single own, letter => own == letter
  | .range low high, letter => charLe plain low letter && charLe plain letter high

inductive GlobUnit where
  | any
  | literal (own : UInt8)
  | set (negate : Bool) (members : List SetMember)

def GlobUnit.accepts (plain : PlainChar) : GlobUnit → UInt8 → Bool
  | .any, _ => true
  | .literal own, letter => own == letter
  | .set negate members, letter =>
      if negate then !members.any (·.accepts plain letter)
      else members.any (·.accepts plain letter)

/-- A letter of the pattern and what follows it.  A backslash stands for the
letter after it, and for itself at the end of the pattern. -/
def unescape (letter : UInt8) (rest : Bytes) : UInt8 × Bytes :=
  match rest with
  | [] => (letter, [])
  | next :: more => if letter = 92 then (next, more) else (letter, rest)

/-- A range, if a dash and another letter than `]` follow. -/
def memberFrom (low : UInt8) (after : Bytes) : SetMember × Bytes :=
  match after with
  | dash :: high :: more =>
      if dash = 45 ∧ high ≠ 93 then (.range low high, more)
      else (.single low, after)
  | _ => (.single low, after)

def readMember (letter : UInt8) (rest : Bytes) : SetMember × Bytes :=
  memberFrom (unescape letter rest).1 (unescape letter rest).2

theorem length_unescape (letter : UInt8) (rest : Bytes) :
    (unescape letter rest).2.length ≤ rest.length := by
  unfold unescape
  split
  · exact Nat.le_refl _
  · split
    · exact Nat.le_succ _
    · exact Nat.le_refl _

theorem length_memberFrom (low : UInt8) (after : Bytes) :
    (memberFrom low after).2.length ≤ after.length := by
  unfold memberFrom
  split
  · split
    · exact Nat.le_succ_of_le (Nat.le_succ _)
    · exact Nat.le_refl _
  · exact Nat.le_refl _

theorem length_readMember (letter : UInt8) (rest : Bytes) :
    (readMember letter rest).2.length ≤ rest.length :=
  (length_memberFrom _ _).trans (length_unescape _ _)

/-- The members of a set up to the closing bracket, which cannot be the first
of them, and what follows it. -/
def readMembers (first : Bool) (text : Bytes) :
    Option (List SetMember × Bytes) :=
  match text with
  | [] => none
  | letter :: rest =>
      if letter = 93 ∧ first = false then some ([], rest)
      else
        (readMembers false (readMember letter rest).2).map fun read =>
          ((readMember letter rest).1 :: read.1, read.2)
termination_by text.length
decreasing_by
  exact Nat.lt_succ_of_le (length_readMember letter rest)

/-- A set after its opening bracket, if it is closed. -/
def readSet (rest : Bytes) : Option (GlobUnit × Bytes) :=
  if rest.head? = some 94 then
    (readMembers true rest.tail).map fun read => (.set true read.1, read.2)
  else (readMembers true rest).map fun read => (.set false read.1, read.2)

/-- One unit, that is not a star, and what follows it. -/
def readUnit (letter : UInt8) (rest : Bytes) : GlobUnit × Bytes :=
  if letter = 63 then (.any, rest)
  else if letter = 91 then (readSet rest).getD (.literal 91, rest)
  else (.literal (unescape letter rest).1, (unescape letter rest).2)

theorem length_readMembers {first : Bool} {text : Bytes}
    {members : List SetMember} {after : Bytes}
    (read : readMembers first text = some (members, after)) :
    after.length < text.length := by
  fun_induction readMembers first text generalizing members after with
  | case1 => cases read
  | case2 =>
      cases read
      exact Nat.lt_succ_self _
  | case3 first letter rest _ induction =>
      obtain ⟨tail, tailRead, same⟩ := Option.map_eq_some_iff.mp read
      cases same
      exact (induction tailRead).trans
        (Nat.lt_succ_of_le (length_readMember letter rest))

theorem length_readUnit (letter : UInt8) (rest : Bytes) :
    (readUnit letter rest).2.length ≤ rest.length := by
  unfold readUnit
  split
  · exact Nat.le_refl _
  · split
    · cases found : readSet rest with
      | none => exact Nat.le_refl _
      | some read =>
          unfold readSet at found
          split at found
          · obtain ⟨⟨members, after⟩, inner, rfl⟩ :=
              Option.map_eq_some_iff.mp found
            have := length_readMembers inner
            rw [List.length_tail] at this
            exact (Nat.le_of_lt this).trans (Nat.sub_le _ _)
          · obtain ⟨⟨members, after⟩, inner, rfl⟩ :=
              Option.map_eq_some_iff.mp found
            exact Nat.le_of_lt (length_readMembers inner)
    · exact length_unescape letter rest

/-- The pieces of a pattern. -/
def globPieces (pat : Bytes) : List (Piece GlobUnit) :=
  match pat with
  | [] => []
  | letter :: rest =>
      if letter = 42 then .star :: globPieces rest
      else .unit (readUnit letter rest).1 :: globPieces (readUnit letter rest).2
termination_by pat.length
decreasing_by
  · exact Nat.lt_succ_self _
  · exact Nat.lt_succ_of_le (length_readUnit letter rest)

/-! ## Units by index -/

section Units

variable {plain : PlainChar}

theorem unescape_at {pat : Bytes} {k : Nat} (inside : k < pat.length)
    (lowInside : lowEnd pat k inside < pat.length) :
    unescape pat[k] (pat.drop (k + 1)) =
      (pat[lowEnd pat k inside], pat.drop (lowEnd pat k inside + 1)) := by
  by_cases more : k + 1 < pat.length
  · rw [List.drop_eq_getElem_cons more, unescape]
    by_cases escaping : pat[k] = 92
    · simp only [lowEnd, escaping, more, and_self, if_true]
    · simp only [lowEnd, escaping, false_and, if_false,
        List.drop_eq_getElem_cons more]
  · rw [List.drop_eq_nil_of_le (Nat.le_of_not_lt more), unescape]
    have low : lowEnd pat k inside = k := by
      rw [lowEnd, if_neg (fun both => more both.2)]
    simp only [low, List.drop_eq_nil_of_le (Nat.le_of_not_lt more)]

/-- A member that does not close the set takes the scan to the index after it. -/
theorem bracketScan_member {pat : Bytes} (letter : UInt8) {first k : Nat}
    (matched : Bool) (inside : k < pat.length)
    (member : ¬ (pat[k] = 93 ∧ first < k)) :
    ∃ next, k < next ∧
      (readMember pat[k] (pat.drop (k + 1))).2 = pat.drop next ∧
      bracketScan plain pat letter first k matched =
        bracketScan plain pat letter first next (matched ||
          (readMember pat[k] (pat.drop (k + 1))).1.accepts plain letter) := by
  have lowInside := lowEnd_lt inside
  have later := le_lowEnd inside
  rw [bracketScan, dif_pos inside, if_neg member, readMember,
    unescape_at inside lowInside]
  dsimp only
  by_cases wide : lowEnd pat k inside + 2 < pat.length
  · have after : pat.drop (lowEnd pat k inside + 1) =
        pat[lowEnd pat k inside + 1] :: pat[lowEnd pat k inside + 2] ::
          pat.drop (lowEnd pat k inside + 3) := by
      rw [List.drop_eq_getElem_cons (by omega),
        List.drop_eq_getElem_cons (by omega)]
    rw [dif_pos wide]
    by_cases isRange : pat[lowEnd pat k inside + 1] = 45 ∧
        pat[lowEnd pat k inside + 2] ≠ 93
    · refine ⟨lowEnd pat k inside + 3, by omega, ?_, ?_⟩
      · rw [after, memberFrom, if_pos isRange]
      · rw [after, memberFrom, if_pos isRange, if_pos isRange]
        rfl
    · refine ⟨lowEnd pat k inside + 1, by omega, ?_, ?_⟩
      · rw [after, memberFrom, if_neg isRange]
      · rw [after, memberFrom, if_neg isRange, if_neg isRange]
        rfl
  · have single : memberFrom pat[lowEnd pat k inside]
        (pat.drop (lowEnd pat k inside + 1)) =
        (.single pat[lowEnd pat k inside],
          pat.drop (lowEnd pat k inside + 1)) := by
      have short : (pat.drop (lowEnd pat k inside + 1)).length ≤ 1 := by
        rw [List.length_drop]
        omega
      generalize pat.drop (lowEnd pat k inside + 1) = after at short ⊢
      cases after with
      | nil => rfl
      | cons dash after =>
          cases after with
          | nil => rfl
          | cons high more => simp at short
    rw [dif_neg wide, single]
    exact ⟨lowEnd pat k inside + 1, by omega, rfl, rfl⟩

/-- The scan finds the members that reading the set yields, and its end. -/
theorem bracketScan_eq (pat : Bytes) (letter : UInt8) {first k : Nat}
    (started : first ≤ k) (matched : Bool) :
    (readMembers (decide (k = first)) (pat.drop k) = none →
      (bracketScan plain pat letter first k matched).2 = none) ∧
    ∀ members after,
      readMembers (decide (k = first)) (pat.drop k) = some (members, after) →
      ∃ close, bracketScan plain pat letter first k matched =
          (matched || members.any (·.accepts plain letter), some close) ∧
        pat.drop (close + 1) = after := by
  induction gap : pat.length - k using Nat.strongRecOn
    generalizing k matched with
  | ind gap induction =>
      by_cases inside : k < pat.length
      · rw [List.drop_eq_getElem_cons inside, readMembers]
        by_cases closes : pat[k] = 93 ∧ first < k
        · rw [if_pos ⟨closes.1, decide_eq_false (Nat.ne_of_gt closes.2)⟩,
            bracketScan, dif_pos inside, if_pos closes]
          refine ⟨fun absent => absurd absent (Option.some_ne_none _), ?_⟩
          intro members after read
          cases read
          exact ⟨k, by simp, rfl⟩
        · have notClosed : ¬ (pat[k] = 93 ∧ decide (k = first) = false) := by
            rintro ⟨isClose, notFirst⟩
            exact closes ⟨isClose, Nat.lt_of_le_of_ne started
              (Ne.symm (of_decide_eq_false notFirst))⟩
          obtain ⟨next, later, follows, scanned⟩ :=
            bracketScan_member letter matched inside closes
          have notFirst : decide (next = first) = false :=
            decide_eq_false (by omega)
          have rest := induction (pat.length - next) (by omega)
            (k := next) (by omega)
            (matched || (readMember pat[k] (pat.drop (k + 1))).1.accepts plain letter)
            rfl
          rw [notFirst] at rest
          rw [if_neg notClosed, scanned, follows]
          constructor
          · intro absent
            exact rest.1 (Option.map_eq_none_iff.mp absent)
          · intro members after read
            obtain ⟨⟨tail, tailAfter⟩, tailRead, same⟩ :=
              Option.map_eq_some_iff.mp read
            cases same
            obtain ⟨close, scan, isAfter⟩ := rest.2 tail tailAfter tailRead
            refine ⟨close, ?_, isAfter⟩
            rw [scan, List.any_cons, Bool.or_assoc]
      · rw [List.drop_eq_nil_of_le (Nat.le_of_not_lt inside), readMembers,
          bracketScan, dif_neg inside]
        refine ⟨fun _ => rfl, ?_⟩
        intro members after read
        cases read

theorem unescape_of_ne {letter : UInt8} (plain : letter ≠ 92) (rest : Bytes) :
    unescape letter rest = (letter, rest) := by
  cases rest with
  | nil => rfl
  | cons next more => rw [unescape, if_neg plain]

/-- At a bracket: the set, or a literal bracket if the set is not closed. -/
theorem matchUnit_set {pat : Bytes} {pi : Nat} (inside : pi < pat.length)
    (letter : UInt8) (bracket : pat[pi] = 91) {negate : Bool} {first : Nat}
    (isNegate : (if next : pi + 1 < pat.length then pat[pi + 1] == 94
      else false) = negate)
    (isFirst : (if negate then pi + 2 else pi + 1) = first) :
    (matchUnit plain pat pi inside letter).1 =
        (((readMembers true (pat.drop first)).map fun read =>
          (GlobUnit.set negate read.1, read.2)).getD
            (.literal 91, pat.drop (pi + 1))).1.accepts plain letter ∧
      pat.drop (matchUnit plain pat pi inside letter).2 =
        (((readMembers true (pat.drop first)).map fun read =>
          (GlobUnit.set negate read.1, read.2)).getD
            (.literal 91, pat.drop (pi + 1))).2 := by
  have notAny : ¬ pat[pi] = 63 := by rw [bracket]; decide
  have notEscape : ¬ (pat[pi] = 92 ∧ pi + 1 < pat.length) := by
    rw [bracket]
    exact fun both => absurd both.1 (by decide)
  have scanned := @bracketScan_eq plain pat letter _ _ (Nat.le_refl first) false
  rw [decide_eq_true rfl] at scanned
  rw [matchUnit, if_neg notAny, dif_neg notEscape, if_pos bracket]
  simp only [isNegate, isFirst]
  cases read : readMembers true (pat.drop first) with
  | none =>
      have unclosed := scanned.1 read
      generalize bracketScan plain pat letter first first false = result at unclosed ⊢
      obtain ⟨matched, close⟩ := result
      obtain rfl : close = none := unclosed
      exact ⟨Bool.beq_comm, rfl⟩
  | some set =>
      obtain ⟨members, after⟩ := set
      obtain ⟨close, scan, isAfter⟩ := scanned.2 members after read
      rw [scan]
      exact ⟨rfl, isAfter⟩

theorem matchUnit_bracket {pat : Bytes} {pi : Nat} (inside : pi < pat.length)
    (letter : UInt8) (bracket : pat[pi] = 91) :
    (matchUnit plain pat pi inside letter).1 =
        (readUnit pat[pi] (pat.drop (pi + 1))).1.accepts plain letter ∧
      pat.drop (matchUnit plain pat pi inside letter).2 =
        (readUnit pat[pi] (pat.drop (pi + 1))).2 := by
  have notAny : ¬ pat[pi] = 63 := by rw [bracket]; decide
  rw [readUnit, if_neg notAny, if_pos bracket, readSet]
  by_cases more : pi + 1 < pat.length
  · rw [List.drop_eq_getElem_cons more, List.head?_cons, List.tail_cons]
    by_cases caret : pat[pi + 1] = 94
    · rw [if_pos (congrArg some caret), ← List.drop_eq_getElem_cons more]
      exact matchUnit_set inside letter bracket
        ((dif_pos more).trans (beq_iff_eq.mpr caret)) rfl
    · rw [if_neg (fun same => caret (Option.some.inj same)),
        ← List.drop_eq_getElem_cons more]
      exact matchUnit_set inside letter bracket
        ((dif_pos more).trans (beq_eq_false_iff_ne.mpr caret)) rfl
  · rw [if_neg (by rw [List.drop_eq_nil_of_le (by omega)]; simp)]
    exact matchUnit_set inside letter bracket (dif_neg more) rfl

theorem matchUnit_eq {pat : Bytes} {pi : Nat} (inside : pi < pat.length)
    (letter : UInt8) :
    (matchUnit plain pat pi inside letter).1 =
        (readUnit pat[pi] (pat.drop (pi + 1))).1.accepts plain letter ∧
      pat.drop (matchUnit plain pat pi inside letter).2 =
        (readUnit pat[pi] (pat.drop (pi + 1))).2 := by
  by_cases bracket : pat[pi] = 91
  · exact matchUnit_bracket inside letter bracket
  · by_cases anyLetter : pat[pi] = 63
    · rw [readUnit, matchUnit, if_pos anyLetter, if_pos anyLetter]
      exact ⟨rfl, rfl⟩
    · have literal : readUnit pat[pi] (pat.drop (pi + 1)) =
          (.literal (unescape pat[pi] (pat.drop (pi + 1))).1,
            (unescape pat[pi] (pat.drop (pi + 1))).2) := by
        rw [readUnit, if_neg anyLetter, if_neg bracket]
      rw [literal, matchUnit, if_neg anyLetter]
      by_cases escaped : pat[pi] = 92 ∧ pi + 1 < pat.length
      · have next := escaped.2
        rw [dif_pos escaped, List.drop_eq_getElem_cons next, unescape,
          if_pos escaped.1]
        exact ⟨rfl, rfl⟩
      · have plain : unescape pat[pi] (pat.drop (pi + 1)) =
            (pat[pi], pat.drop (pi + 1)) := by
          by_cases backslash : pat[pi] = 92
          · have last : pat.length ≤ pi + 1 :=
              Nat.le_of_not_lt fun more => escaped ⟨backslash, more⟩
            rw [List.drop_eq_nil_of_le last, unescape]
          · exact unescape_of_ne backslash _
        rw [dif_neg escaped, if_neg bracket, plain]
        exact ⟨rfl, rfl⟩

theorem globPieces_star {pat : Bytes} {pi : Nat} (inside : pi < pat.length)
    (isStar : pat[pi] = 42) :
    globPieces (pat.drop pi) = .star :: globPieces (pat.drop (pi + 1)) := by
  rw [List.drop_eq_getElem_cons inside, globPieces, if_pos isStar]

/-- The unit at an index ends where the matcher says, whatever the letter. -/
theorem globPieces_unit {pat : Bytes} {pi : Nat} (inside : pi < pat.length)
    (noStar : pat[pi] ≠ 42) (letter : UInt8) :
    ∃ unit, globPieces (pat.drop pi) = .unit unit ::
        globPieces (pat.drop (matchUnit plain pat pi inside letter).2) ∧
      (matchUnit plain pat pi inside letter).1 = unit.accepts plain letter := by
  obtain ⟨accepted, follows⟩ := matchUnit_eq inside letter
  refine ⟨_, ?_, accepted⟩
  rw [List.drop_eq_getElem_cons inside, globPieces, if_neg noStar, follows]

/-! ## The matcher -/

theorem globPieces_all_star (pat : Bytes) :
    (∀ piece ∈ globPieces pat, piece = .star) ↔
      pat.all (· == 42) = true := by
  induction pat with
  | nil =>
      rw [globPieces]
      exact ⟨fun _ => rfl, fun _ => List.forall_mem_nil _⟩
  | cons letter rest induction =>
      rw [globPieces, List.all_cons, Bool.and_eq_true, beq_iff_eq]
      by_cases isStar : letter = 42
      · rw [if_pos isStar, List.forall_mem_cons, induction]
        exact and_congr_left fun _ => ⟨fun _ => isStar, fun _ => rfl⟩
      · rw [if_neg isStar, List.forall_mem_cons]
        constructor
        · rintro ⟨impossible, _⟩
          cases impossible
        · rintro ⟨same, _⟩
          exact absurd same isStar

theorem retry_drop {pieces : List (Piece GlobUnit)} {str : Bytes} {si : Nat}
    (inside : si < str.length) :
    Retry (GlobUnit.accepts plain) pieces (str.drop si) ↔
      Matches (GlobUnit.accepts plain) (.star :: pieces) (str.drop (si + 1)) := by
  rw [List.drop_eq_getElem_cons inside]
  constructor
  · rintro ⟨_, _, same, matched⟩
    cases same
    exact matched
  · intro matched
    exact ⟨_, _, rfl, matched⟩

/-- What the matcher still has to find out: whether the text left matches the
pieces left, or the last star can take more than it was last tried with. -/
def Open (plain : PlainChar) (pat str : Bytes) (pi si : Nat)
    (star : Option (Nat × Nat)) : Prop :=
  Matches (GlobUnit.accepts plain) (globPieces (pat.drop pi)) (str.drop si) ∨
    ∃ tried ∈ star, Retry (GlobUnit.accepts plain) (globPieces (pat.drop tried.1))
      (str.drop tried.2)

/-- Only units lie between the last star and the present position. -/
def Tracks (plain : PlainChar) (pat str : Bytes) (pi si : Nat)
    (star : Option (Nat × Nat)) : Prop :=
  ∀ tried ∈ star, Along (GlobUnit.accepts plain) (globPieces (pat.drop tried.1))
    (str.drop tried.2) (globPieces (pat.drop pi)) (str.drop si)

theorem open_star {pat str : Bytes} {pi si : Nat} {star : Option (Nat × Nat)}
    (tracks : Tracks plain pat str pi si star) (inside : pi < pat.length)
    (isStar : pat[pi] = 42) :
    Open plain pat str pi si star ↔
      Open plain pat str (pi + 1) si (some (pi + 1, si)) := by
  have pieces := globPieces_star inside isStar
  have forgotten : Open plain pat str pi si star ↔ Matches (GlobUnit.accepts plain)
      (globPieces (pat.drop pi)) (str.drop si) := by
    refine ⟨?_, .inl⟩
    rintro (matched | ⟨tried, isTried, retry⟩)
    · exact matched
    · have along := tracks tried isTried
      rw [pieces] at along ⊢
      exact along.star_iff.mp (.inr retry)
  rw [forgotten, pieces, Matches.star_iff_retry, Open]
  apply or_congr_right
  constructor
  · intro retry
    exact ⟨_, rfl, retry⟩
  · rintro ⟨tried, same, retry⟩
    cases same
    exact retry

/-- The letter goes to the unit, so nothing changes for the last star. -/
theorem open_unit {pat str : Bytes} {pi si next : Nat}
    {star : Option (Nat × Nat)} (tracks : Tracks plain pat str pi si star)
    (more : si < str.length) (inside : pi < pat.length) (noStar : pat[pi] ≠ 42)
    (accepted : matchUnit plain pat pi inside str[si] = (true, next)) :
    Tracks plain pat str next (si + 1) star ∧
      (Open plain pat str pi si star ↔ Open plain pat str next (si + 1) star) := by
  obtain ⟨unit, pieces, accepts⟩ := globPieces_unit inside noStar str[si]
  rw [accepted] at pieces accepts
  have text := List.drop_eq_getElem_cons more
  constructor
  · intro tried isTried
    have along := tracks tried isTried
    rw [pieces, text] at along
    exact .unit accepts.symm along
  · rw [Open, Open, pieces, text, Matches.unit_iff]
    exact or_congr_left (and_iff_right accepts.symm)

/-- When the present position fails, the last star is all there is. -/
theorem open_back {pat str : Bytes} {pi si starPi starSi : Nat}
    (more : starSi < str.length)
    (failed : ¬ Matches (GlobUnit.accepts plain) (globPieces (pat.drop pi))
      (str.drop si)) :
    Open plain pat str pi si (some (starPi, starSi)) ↔
      Open plain pat str starPi (starSi + 1) (some (starPi, starSi + 1)) := by
  have single (position : Nat) : (∃ tried ∈ some (starPi, position),
      Retry (GlobUnit.accepts plain) (globPieces (pat.drop tried.1))
        (str.drop tried.2)) ↔
      Retry (GlobUnit.accepts plain) (globPieces (pat.drop starPi))
        (str.drop position) := by
    constructor
    · rintro ⟨tried, same, retry⟩
      cases same
      exact retry
    · intro retry
      exact ⟨_, rfl, retry⟩
  rw [Open, Open, single, single, or_iff_right failed, retry_drop more,
    Matches.star_iff_retry]

theorem not_matches_unit {pat str : Bytes} {pi si next : Nat}
    (more : si < str.length) (inside : pi < pat.length) (noStar : pat[pi] ≠ 42)
    (rejected : matchUnit plain pat pi inside str[si] = (false, next)) :
    ¬ Matches (GlobUnit.accepts plain) (globPieces (pat.drop pi)) (str.drop si) := by
  obtain ⟨unit, pieces, accepts⟩ := globPieces_unit inside noStar str[si]
  rw [rejected] at accepts
  rw [pieces, List.drop_eq_getElem_cons more, Matches.unit_iff, ← accepts]
  exact fun both => Bool.false_ne_true both.1

theorem not_matches_end {pat str : Bytes} {pi si : Nat}
    (more : si < str.length) (outside : ¬ pi < pat.length) :
    ¬ Matches (GlobUnit.accepts plain) (globPieces (pat.drop pi)) (str.drop si) := by
  rw [List.drop_eq_nil_of_le (Nat.le_of_not_lt outside), globPieces,
    List.drop_eq_getElem_cons more]
  intro matched
  cases matched

theorem not_open_none {pat str : Bytes} {pi si : Nat}
    (failed : ¬ Matches (GlobUnit.accepts plain) (globPieces (pat.drop pi))
      (str.drop si)) :
    Open plain pat str pi si none ↔ false = true := by
  refine ⟨?_, fun impossible => by cases impossible⟩
  rintro (matched | ⟨_, absent, _⟩)
  · exact absurd matched failed
  · cases absent

theorem open_end {pat str : Bytes} {pi si : Nat} {star : Option (Nat × Nat)}
    (tracks : Tracks plain pat str pi si star) (done : ¬ si < str.length) :
    Open plain pat str pi si star ↔ (pat.drop pi).all (· == 42) = true := by
  have text : str.drop si = [] :=
    List.drop_eq_nil_of_le (Nat.le_of_not_lt done)
  rw [← globPieces_all_star, ← Matches.nil_iff, Open, text]
  refine or_iff_left ?_
  rintro ⟨tried, isTried, retry⟩
  have along := tracks tried isTried
  rw [text] at along
  exact along.not_retry retry

theorem globLoop_iff (pat str : Bytes) (pi si : Nat)
    (star : Option (Nat × Nat)) (ordered : ∀ tried ∈ star, tried.2 ≤ si)
    (tracks : Tracks plain pat str pi si star) :
    globLoop plain pat str pi si star ordered = true ↔
      Open plain pat str pi si star := by
  fun_induction globLoop plain pat str pi si star ordered with
  | case1 pi si star ordered more inside isStar induction =>
      rw [open_star tracks inside isStar]
      refine induction ?_
      intro tried same
      cases same
      exact .here
  | case2 pi si star ordered more inside noStar next accepted induction =>
      obtain ⟨stillTracks, same⟩ :=
        open_unit tracks more inside noStar accepted
      rw [same]
      exact induction stillTracks
  | case3 pi si more inside noStar next rejected =>
      exact (not_open_none (not_matches_unit more inside noStar rejected)).symm
  | case4 pi si more inside noStar next rejected starPi starSi before ordered
      induction =>
      have behind : starSi ≤ si := ordered (starPi, starSi) rfl
      rw [open_back (by omega)
        (not_matches_unit more inside noStar rejected)]
      refine induction ?_
      intro tried same
      cases same
      exact .here
  | case5 pi si more outside =>
      exact (not_open_none (not_matches_end more outside)).symm
  | case6 pi si more outside starPi starSi before ordered induction =>
      have behind : starSi ≤ si := ordered (starPi, starSi) rfl
      rw [open_back (by omega) (not_matches_end more outside)]
      refine induction ?_
      intro tried same
      cases same
      exact .here
  | case7 pi si star ordered done => exact (open_end tracks done).symm

/-- The pattern matches exactly the strings that can be divided among its
pieces. -/
theorem globMatch_iff (plain : PlainChar) (pat str : Bytes) :
    globMatch plain pat str = true ↔
      Matches (GlobUnit.accepts plain) (globPieces pat) str := by
  have tracks : Tracks plain pat str 0 0 none := fun _ absent => by cases absent
  rw [globMatch, globLoop_iff pat str 0 0 none _ tracks, Open, List.drop_zero,
    List.drop_zero]
  refine or_iff_left ?_
  rintro ⟨_, absent, _⟩
  cases absent

end Units

/-- For every pattern: where a unit ends does not depend on the letter, the
matcher decides whether the string can be divided among stars and units, and
listing the keys that match yields each of them once and no other. -/
theorem glob_correct (plain : PlainChar) (pat : Bytes) :
    (∀ pi (inside : pi < pat.length) letter, pat[pi] ≠ 42 →
      ∃ unit, globPieces (pat.drop pi) = .unit unit ::
          globPieces (pat.drop (matchUnit plain pat pi inside letter).2) ∧
        (matchUnit plain pat pi inside letter).1 = unit.accepts plain letter) ∧
      (∀ str, globMatch plain pat str = true ↔
        Matches (GlobUnit.accepts plain) (globPieces pat) str) ∧
      ∀ (db : Db) (walk : Walk), (db.keysMatchingGlob plain walk pat).Nodup ∧
        ∀ key, key ∈ db.keysMatchingGlob plain walk pat ↔
          db.find key ≠ none ∧
            Matches (GlobUnit.accepts plain) (globPieces pat) key := by
  refine ⟨?_, globMatch_iff plain pat, ?_⟩
  · intro pi inside letter noStar
    exact globPieces_unit inside noStar letter
  · intro db walk
    refine ⟨db.nodup_keysMatchingGlob plain walk pat, ?_⟩
    intro key
    rw [Db.mem_keysMatchingGlob, globMatch_iff]

/-- A range of letters is the same on every target, one beyond ASCII is not. -/
example : globMatch .signed (ascii "[a-c]") (ascii "b") = true ∧
    globMatch .unsigned (ascii "[a-c]") (ascii "b") = true ∧
    globMatch .signed [91, 97, 45, 233, 93] (ascii "b") = false ∧
    globMatch .unsigned [91, 97, 45, 233, 93] (ascii "b") = true := by
  simp [globMatch, globLoop, matchUnit, bracketScan, lowEnd, charLe, ascii]

end HermitDb.Core
