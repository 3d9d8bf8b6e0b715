import ScriptTyping.Proofs.Subtyping.Check

/-!
# Runs of a recursion guard

A guard is used in any order: keys are entered and left, also keys that are not being visited, which
is a misuse and changes nothing.  Whatever the order, the guard keeps count of the keys that are
being visited and of the attempts to enter, and the answer to each attempt is determined by these
two numbers and the key, in this order of precedence: budget, depth, key.

The attempts of a run are listed with the guards that they were made with, so that the answers of
the whole run can be spoken of.

## Main definitions

* `RecursionGuard.Move`, `RecursionGuard.move`, `RecursionGuard.run` — uses of a guard.
* `RecursionGuard.Attempt`, `RecursionGuard.attempts`, `RecursionGuard.log` — attempts to enter.
* `RecursionGuard.Balanced`, `RecursionGuard.Counts` — the guard after a number of attempts.

## Main results

* `RecursionGuard.Counts.enter_fst` — the answer to an attempt.
* `RecursionGuard.Counts.move`, `RecursionGuard.Counts.run` — what every use keeps.
* `RecursionGuard.exceeded_run` — when the mark of a met limit is set.
* `RecursionGuard.run_lawful` — all of this for any run, and the guard of a subtype query.
-/

namespace ScriptTyping

namespace RecursionGuard

/-- One use of a guard. -/
inductive Move (K : Type) where
  | enter (key : K)
  | leave (key : K)
  /-- Enters and, if that succeeds, leaves again. -/
  | scope (key : K)
  /-- Enters and leaves a number of times. -/
  | churn (key : K) (times : Nat)
  deriving DecidableEq, Repr

/-- An attempt to enter with a key, and the guard that it is made with. -/
structure Attempt (K : Type) where
  guard : RecursionGuard K
  key : K

/-! ### Counting attempts -/

variable {K : Type}

/-- The depth is the number of the keys that are being visited, and stays within its limit. -/
structure Balanced (maxDepth : Nat) (g : RecursionGuard K) : Prop where
  nodup : g.visiting.Nodup
  depth : g.depth = g.visiting.length
  depth_le : g.depth ≤ maxDepth

/-- A guard with the given limits after a number of attempts to enter.  The counter of the attempts
stays at its own limit. -/
structure Counts (maxDepth maxIterations attempted : Nat) (g : RecursionGuard K) : Prop
    extends Balanced maxDepth g where
  iterations : g.iterations = min attempted counterLimit
  maxDepth : g.maxDepth = maxDepth
  maxIterations : g.maxIterations = maxIterations

/-- The attempts of a list are counted from a given number on. -/
def Counted (maxDepth maxIterations attempted : Nat) (l : List (Attempt K)) : Prop :=
  ∀ i a, l[i]? = some a → Counts maxDepth maxIterations (attempted + i) a.guard

variable {g : RecursionGuard K} {maxDepth maxIterations attempted : Nat} {key : K}

theorem Counts.fresh (maxDepth maxIterations : Nat) :
    Counts maxDepth maxIterations 0 (RecursionGuard.fresh maxDepth maxIterations : RecursionGuard K)
    where
  nodup := List.nodup_nil
  depth := rfl
  depth_le := Nat.zero_le _
  iterations := rfl
  maxDepth := rfl
  maxIterations := rfl

theorem Counted.nil : Counted maxDepth maxIterations attempted ([] : List (Attempt K)) :=
  fun _ _ ha => by cases ha

theorem Counted.cons {l : List (Attempt K)} (h : Counts maxDepth maxIterations attempted g)
    (key : K) (hl : Counted maxDepth maxIterations (attempted + 1) l) :
    Counted maxDepth maxIterations attempted (⟨g, key⟩ :: l) := by
  intro i a ha
  cases i with
  | zero =>
    cases ha
    exact h
  | succ i =>
    rw [Nat.add_comm i 1, ← Nat.add_assoc]
    exact hl i a ha

theorem Counted.append {l l' : List (Attempt K)} (hl : Counted maxDepth maxIterations attempted l)
    (hl' : Counted maxDepth maxIterations (attempted + l.length) l') :
    Counted maxDepth maxIterations attempted (l ++ l') := by
  intro i a ha
  rw [List.getElem?_append] at ha
  split at ha
  · exact hl i a ha
  · have hcounts := hl' _ a ha
    rw [Nat.add_assoc, Nat.add_sub_cancel' (by omega)] at hcounts
    exact hcounts

/-! ### Uses -/

variable [DecidableEq K]

/-- The guard after one use.  A misuse leaves it as it was. -/
def move (g : RecursionGuard K) : Move K → RecursionGuard K
  | .enter key => (g.enter key).2
  | .leave key => (g.leave key).toOption.getD g
  | .scope key => (g.scope key ()).2
  | .churn key times => (churn key times none g).2

/-- What a use reports of its attempts to enter. -/
def report (g : RecursionGuard K) : Move K → Option EntryResult
  | .enter key => some (g.enter key).1
  | .leave _ => none
  | .scope key =>
    match (g.scope key ()).1 with
    | .ok _ => some .entered
    | .error denied => some denied
  | .churn key times => (churn key times none g).1

/-- The guard after any number of uses. -/
def run (g : RecursionGuard K) (moves : List (Move K)) : RecursionGuard K := moves.foldl move g

/-- The answer to an attempt. -/
def Attempt.answer (a : Attempt K) : EntryResult := (a.guard.enter a.key).1

/-- The attempts to enter in which a key is entered and left a number of times. -/
def touches (key : K) : Nat → RecursionGuard K → List (Attempt K)
  | 0, _ => []
  | times + 1, g => ⟨g, key⟩ :: touches key times (g.touch key).2

/-- The attempts to enter in one use. -/
def attempts (g : RecursionGuard K) : Move K → List (Attempt K)
  | .enter key | .scope key => [⟨g, key⟩]
  | .leave _ => []
  | .churn key times => touches key times g

/-- The attempts to enter in a run, the first one first. -/
def log (g : RecursionGuard K) : List (Move K) → List (Attempt K)
  | [] => []
  | m :: moves => g.attempts m ++ (g.move m).log moves

theorem isVisiting_eq_true : g.isVisiting key = true ↔ key ∈ g.visiting := by
  rw [isVisiting, List.contains_iff_mem]

/-! ### The guard after one use -/

/-- The guard after an attempt to enter differs from the guard before in its counter, and in the
entry or the mark that goes with the answer. -/
theorem enter_snd (g : RecursionGuard K) (key : K) : (g.enter key).2 =
    { g with
      iterations := min (g.iterations + 1) counterLimit
      visiting := if (g.enter key).1 = .entered then key :: g.visiting else g.visiting
      depth := if (g.enter key).1 = .entered then g.depth + 1 else g.depth
      exceeded := g.exceeded || (g.enter key).1.isExceeded } := by
  rw [enter]
  dsimp only
  split
  · simp [EntryResult.isExceeded]
  split
  · simp [EntryResult.isExceeded]
  split
  · simp [EntryResult.isExceeded]
  · simp [EntryResult.isExceeded]

/-- A key that is entered is not being visited before, and there is room for it. -/
theorem not_mem_of_entered (h : (g.enter key).1 = .entered) :
    key ∉ g.visiting ∧ g.depth < g.maxDepth := by
  rw [enter] at h
  dsimp only at h
  split at h
  · cases h
  split at h
  · cases h
  rename_i hdepth
  split at h
  · cases h
  · rename_i hkey
    exact ⟨fun hmem => hkey (isVisiting_eq_true.mpr hmem), Nat.lt_of_not_le hdepth⟩

/-- Leaving a key takes its entry back, if there is one. -/
theorem leave_getD (g : RecursionGuard K) (key : K) : (g.leave key).toOption.getD g =
    if key ∈ g.visiting then { g with visiting := g.visiting.erase key, depth := g.depth - 1 }
    else g := by
  rw [leave]
  by_cases hkey : key ∈ g.visiting
  · rw [if_pos (isVisiting_eq_true.mpr hkey), if_pos hkey]
    rfl
  · rw [if_neg (mt isVisiting_eq_true.mp hkey), if_neg hkey]
    rfl

/-- Entering and leaving again changes the counter and the mark only. -/
theorem touch_eq (g : RecursionGuard K) (key : K) : g.touch key = ((g.enter key).1,
    { g with
      iterations := min (g.iterations + 1) counterLimit
      exceeded := g.exceeded || (g.enter key).1.isExceeded }) := by
  have hsnd := enter_snd g key
  rw [touch]
  rcases henter : g.enter key with ⟨r, g'⟩
  rw [henter] at hsnd
  dsimp only at hsnd ⊢
  rw [hsnd]
  cases r with
  | entered => simp [leave_getD]
  | _ => simp

theorem scope_fst {α : Type} (g : RecursionGuard K) (key : K) (value : α) :
    (g.scope key value).1 =
      if (g.enter key).1 = .entered then .ok value else .error (g.enter key).1 := by
  rw [scope]
  rcases g.enter key with ⟨r, g'⟩
  cases r <;> rfl

theorem scope_snd {α : Type} (g : RecursionGuard K) (key : K) (value : α) :
    (g.scope key value).2 = (g.touch key).2 := by
  rw [scope, touch]
  rcases g.enter key with ⟨r, g'⟩
  cases r <;> rfl

/-- The last answer in a use is what it reports. -/
theorem report_eq (g : RecursionGuard K) (m : Move K) :
    g.report m = ((g.attempts m).map Attempt.answer).getLast? := by
  have hchurn (key : K) (times : Nat) (last : Option EntryResult) (g : RecursionGuard K) :
      (churn key times last g).1 =
        ((touches key times g).map Attempt.answer).getLast?.or last := by
    induction times generalizing last g with
    | zero => rfl
    | succ times ih =>
      rw [churn, ih, touches, List.map_cons, List.getLast?_cons, touch_eq]
      cases ((touches key times _).map Attempt.answer).getLast? <;> rfl
  cases m with
  | enter key => rfl
  | leave key => rfl
  | scope key =>
    rw [report, scope_fst]
    cases hanswer : (g.enter key).1 <;> simp [attempts, Attempt.answer, hanswer]
  | churn key times =>
    rw [report, hchurn, Option.or_none, attempts]

/-! ### Counts -/

namespace Counts

/-- The answer to an attempt: the budget comes before the depth, and the depth before the key. -/
theorem enter_fst (h : Counts maxDepth maxIterations attempted g)
    (hlimit : maxIterations < counterLimit) (key : K) : (g.enter key).1 =
      if maxIterations < attempted + 1 then .iterationExceeded
      else if g.depth = maxDepth then .depthExceeded
      else if key ∈ g.visiting then .cycle
      else .entered := by
  have hbudget : g.maxIterations < min (g.iterations + 1) counterLimit ↔
      maxIterations < attempted + 1 := by
    rw [h.iterations, h.maxIterations]
    omega
  have hdepth : g.maxDepth ≤ g.depth ↔ g.depth = maxDepth := by
    have hle := h.depth_le
    rw [h.maxDepth]
    omega
  rw [enter]
  dsimp only
  simp only [hbudget, hdepth, isVisiting_eq_true]
  split_ifs <;> rfl

theorem enter (h : Counts maxDepth maxIterations attempted g) (key : K) :
    Counts maxDepth maxIterations (attempted + 1) (g.enter key).2 := by
  have hiterations : min (g.iterations + 1) counterLimit = min (attempted + 1) counterLimit := by
    rw [h.iterations]
    omega
  rw [enter_snd]
  by_cases hentered : (g.enter key).1 = .entered
  · obtain ⟨hkey, hroom⟩ := not_mem_of_entered hentered
    simp only [if_pos hentered]
    rw [h.maxDepth] at hroom
    exact ⟨⟨List.nodup_cons.mpr ⟨hkey, h.nodup⟩, congrArg (· + 1) h.depth, hroom⟩, hiterations,
      h.maxDepth, h.maxIterations⟩
  · simp only [if_neg hentered]
    exact ⟨⟨h.nodup, h.depth, h.depth_le⟩, hiterations, h.maxDepth, h.maxIterations⟩

theorem leave (h : Counts maxDepth maxIterations attempted g) (key : K) :
    Counts maxDepth maxIterations attempted ((g.leave key).toOption.getD g) := by
  rw [leave_getD]
  split
  · rename_i hkey
    refine ⟨⟨h.nodup.erase key, ?_, ?_⟩, h.iterations, h.maxDepth, h.maxIterations⟩
    · dsimp only
      rw [List.length_erase_of_mem hkey, h.depth]
    · exact Nat.le_trans (Nat.sub_le _ _) h.depth_le
  · exact h

theorem touch (h : Counts maxDepth maxIterations attempted g) (key : K) :
    Counts maxDepth maxIterations (attempted + 1) (g.touch key).2 := by
  rw [touch_eq]
  refine ⟨⟨h.nodup, h.depth, h.depth_le⟩, ?_, h.maxDepth, h.maxIterations⟩
  dsimp only
  rw [h.iterations]
  omega

theorem churn (h : Counts maxDepth maxIterations attempted g) (key : K) (times : Nat)
    (last : Option EntryResult) : Counts maxDepth maxIterations
      (attempted + (touches key times g).length) (RecursionGuard.churn key times last g).2 := by
  induction times generalizing attempted g last with
  | zero => exact h
  | succ times ih =>
    rw [touches, List.length_cons, Nat.add_comm _ 1, ← Nat.add_assoc, RecursionGuard.churn]
    exact ih (h.touch key) _

/-- What one use of a guard keeps. -/
theorem move (h : Counts maxDepth maxIterations attempted g) (m : Move K) :
    Counts maxDepth maxIterations (attempted + (g.attempts m).length) (g.move m) := by
  cases m with
  | enter key => exact h.enter key
  | leave key => exact h.leave key
  | scope key =>
    rw [RecursionGuard.move, scope_snd]
    exact h.touch key
  | churn key times => exact h.churn key times none

/-- What any number of uses keeps. -/
theorem run (h : Counts maxDepth maxIterations attempted g) (moves : List (Move K)) :
    Counts maxDepth maxIterations (attempted + (g.log moves).length) (g.run moves) := by
  induction moves generalizing attempted g with
  | nil => exact h
  | cons m moves ih =>
    rw [log, List.length_append, ← Nat.add_assoc]
    exact ih (h.move m)

end Counts

/-! ### Attempts -/

theorem Counts.touches (h : Counts maxDepth maxIterations attempted g) (key : K) (times : Nat) :
    Counted maxDepth maxIterations attempted (touches key times g) := by
  induction times generalizing attempted g with
  | zero => exact .nil
  | succ times ih => exact .cons h key (ih (h.touch key))

theorem Counts.attempts (h : Counts maxDepth maxIterations attempted g) (m : Move K) :
    Counted maxDepth maxIterations attempted (g.attempts m) := by
  cases m with
  | enter key | scope key => exact .cons h key .nil
  | leave key => exact .nil
  | churn key times => exact h.touches key times

theorem Counts.log (h : Counts maxDepth maxIterations attempted g) (moves : List (Move K)) :
    Counted maxDepth maxIterations attempted (g.log moves) := by
  induction moves generalizing attempted g with
  | nil => exact .nil
  | cons m moves ih => exact (h.attempts m).append (ih (h.move m))

/-! ### The mark and the keys -/

theorem exceeded_churn (g : RecursionGuard K) (key : K) (times : Nat) (last : Option EntryResult) :
    (churn key times last g).2.exceeded =
      (g.exceeded || (touches key times g).any (·.answer.isExceeded)) := by
  induction times generalizing g last with
  | zero => exact (Bool.or_false _).symm
  | succ times ih =>
    rw [churn, ih, touches, List.any_cons, touch_eq, ← Bool.or_assoc]
    rfl

/-- A use sets the mark if a limit was met by one of its attempts. -/
theorem exceeded_move (g : RecursionGuard K) (m : Move K) :
    (g.move m).exceeded = (g.exceeded || (g.attempts m).any (·.answer.isExceeded)) := by
  have hattempt (key : K) : [Attempt.mk g key].any (·.answer.isExceeded) =
      (g.enter key).1.isExceeded := Bool.or_false _
  cases m with
  | enter key => rw [move, enter_snd, attempts, hattempt]
  | leave key =>
    rw [move, leave_getD, attempts, List.any_nil, Bool.or_false]
    split <;> rfl
  | scope key => rw [move, scope_snd, touch_eq, attempts, hattempt]
  | churn key times => exact exceeded_churn g key times none

/-- The mark is set if a limit was met by one of the attempts of the run. -/
theorem exceeded_run (g : RecursionGuard K) (moves : List (Move K)) :
    (g.run moves).exceeded = (g.exceeded || (g.log moves).any (·.answer.isExceeded)) := by
  induction moves generalizing g with
  | nil => exact (Bool.or_false _).symm
  | cons m moves ih =>
    rw [log, List.any_append, ← Bool.or_assoc, ← exceeded_move]
    exact ih (g.move m)

theorem visiting_churn (g : RecursionGuard K) (key : K) (times : Nat) (last : Option EntryResult) :
    (churn key times last g).2.visiting = g.visiting := by
  induction times generalizing g last with
  | zero => rfl
  | succ times ih => rw [churn, ih, touch_eq]

/-- A key is being visited after a use if it was before and is not left, or if it is entered. -/
theorem Counts.mem_visiting_move (h : Counts maxDepth maxIterations attempted g) (m : Move K)
    (key : K) : key ∈ (g.move m).visiting ↔
      key ∈ g.visiting ∧ m ≠ .leave key ∨ m = .enter key ∧ (g.enter key).1 = .entered := by
  cases m with
  | enter other =>
    rw [RecursionGuard.move, enter_snd]
    by_cases hentered : (g.enter other).1 = .entered
    · simp only [if_pos hentered, List.mem_cons]
      constructor
      · rintro (rfl | hmem)
        · exact .inr ⟨rfl, hentered⟩
        · exact .inl ⟨hmem, fun hm => by cases hm⟩
      · rintro (⟨hmem, -⟩ | ⟨hm, -⟩)
        · exact .inr hmem
        · cases hm
          exact .inl rfl
    · simp only [if_neg hentered]
      constructor
      · exact fun hmem => .inl ⟨hmem, fun hm => by cases hm⟩
      · rintro (⟨hmem, -⟩ | ⟨hm, hother⟩)
        · exact hmem
        · cases hm
          exact absurd hother hentered
  | leave other =>
    rw [RecursionGuard.move, leave_getD]
    split
    · simp [h.nodup.mem_erase_iff, and_comm, eq_comm]
    · rename_i hother
      constructor
      · intro hmem
        refine .inl ⟨hmem, fun hm => ?_⟩
        cases hm
        exact hother hmem
      · rintro (⟨hmem, -⟩ | ⟨hm, -⟩)
        · exact hmem
        · cases hm
  | scope other =>
    rw [RecursionGuard.move, scope_snd, touch_eq]
    simp
  | churn other times =>
    rw [RecursionGuard.move, visiting_churn]
    simp

/-- The answers of a run, by the number of the attempt. -/
theorem answer_log (hlimit : maxIterations < counterLimit) (moves : List (Move K)) {i : Nat}
    {a : Attempt K} (ha : ((fresh maxDepth maxIterations).log moves)[i]? = some a) :
    a.answer =
      if maxIterations < i + 1 then .iterationExceeded
      else if a.guard.depth = maxDepth then .depthExceeded
      else if a.key ∈ a.guard.visiting then .cycle
      else .entered := by
  have hcounts := (Counts.fresh maxDepth maxIterations).log moves i a ha
  rw [Nat.zero_add] at hcounts
  exact hcounts.enter_fst hlimit a.key

/-- Once the budget is exceeded, all further attempts are answered so. -/
theorem pairwise_log (hlimit : maxIterations < counterLimit) (moves : List (Move K)) :
    ((fresh maxDepth maxIterations).log moves).Pairwise fun a b =>
      a.answer = .iterationExceeded → b.answer = .iterationExceeded := by
  have hanswer {i : Nat} {a : Attempt K}
      (ha : ((fresh maxDepth maxIterations).log moves)[i]? = some a) :
      a.answer = .iterationExceeded ↔ maxIterations < i + 1 := by
    rw [answer_log hlimit moves ha]
    split_ifs <;> simp_all
  rw [List.pairwise_iff_getElem]
  intro i j hi hj hlt hexceeded
  have hbudget := (hanswer (List.getElem?_eq_getElem hi)).mp hexceeded
  exact (hanswer (List.getElem?_eq_getElem hj)).mpr (by omega)

end RecursionGuard

/-! ### The guard of a subtype query -/

/-- Every subtype query that returns has run under a guard that is empty in the end, so that it can
be given up. -/
def World.EmptiesGuard (w : World) : Prop :=
  ∀ env source target T answer T', w.isSubtype env source target T = .ok answer T' →
    ∃ s t T₁ T₂ guard, env.substitute source T = .ok s T₁ ∧ env.substitute target T₁ = .ok t T₂ ∧
      Subtyping.run w s t T₂ = .ok (answer, guard) T' ∧ guard.visiting = [] ∧
      guard.finish = .ok ()

theorem World.emptiesGuard (w : World) : w.EmptiesGuard := by
  intro env source target T answer T' h
  obtain ⟨s, T₁, hs, h⟩ := TypeM.bind_eq_ok.mp h
  obtain ⟨t, T₂, ht, h⟩ := TypeM.bind_eq_ok.mp h
  obtain ⟨⟨b, guard⟩, T₃, hrun, h⟩ := TypeM.bind_eq_ok.mp h
  obtain ⟨rfl, rfl⟩ := TypeM.pure_eq_ok.mp h
  have hvisiting : guard.visiting = [] :=
    (Subtyping.check_frame _ s t _ _ _ _ _ hrun).visiting
  refine ⟨s, t, T₁, T₂, guard, hs, ht, hrun, hvisiting, ?_⟩
  rw [RecursionGuard.finish, hvisiting]
  rfl

/-! ### Any run -/

namespace RecursionGuard

variable {K : Type} [DecidableEq K]

/-- In any run of a guard whose budget the counter can exceed: the depth is the number of the keys
that are being visited and stays within its limit, also while a key is entered within a use; an
attempt is answered by the budget first, then by the depth and then by the key; an exceeded budget
stays exceeded; the mark tells whether a limit was ever met; a key is being visited from its entry
until it is left, and leaving it at any other time is a misuse.  What a use reports is the last
answer in it.  The guards of subtype queries are empty in the end. -/
theorem run_lawful (maxDepth maxIterations : Nat) (hlimit : maxIterations < counterLimit)
    (moves : List (Move K)) :
    let start : RecursionGuard K := fresh maxDepth maxIterations
    let g := start.run moves
    Balanced maxDepth g ∧
    (∀ a ∈ start.log moves, Balanced maxDepth a.guard ∧
      Balanced maxDepth (a.guard.enter a.key).2) ∧
    (∀ i a, (start.log moves)[i]? = some a → a.answer =
      if maxIterations < i + 1 then .iterationExceeded
      else if a.guard.depth = maxDepth then .depthExceeded
      else if a.key ∈ a.guard.visiting then .cycle
      else .entered) ∧
    (start.log moves).Pairwise (fun a b =>
      a.answer = .iterationExceeded → b.answer = .iterationExceeded) ∧
    (g.exceeded = true ↔ ∃ a ∈ start.log moves, a.answer.isExceeded = true) ∧
    (∀ m key, key ∈ (g.move m).visiting ↔
      key ∈ g.visiting ∧ m ≠ .leave key ∨ m = .enter key ∧ (g.enter key).1 = .entered) ∧
    (∀ key, g.leave key = .error .unmatchedLeave ↔ key ∉ g.visiting) ∧
    (∀ m, g.report m = ((g.attempts m).map Attempt.answer).getLast?) ∧
    ∀ w : World, w.EmptiesGuard := by
  have hfresh : Counts maxDepth maxIterations 0 (fresh maxDepth maxIterations : RecursionGuard K) :=
    .fresh maxDepth maxIterations
  have hcounts := hfresh.run moves
  refine ⟨hcounts.toBalanced, fun a ha => ?_, fun i a ha => answer_log hlimit moves ha,
    pairwise_log hlimit moves, ?_, hcounts.mem_visiting_move, fun key => ?_, report_eq _,
    World.emptiesGuard⟩
  · obtain ⟨i, hi⟩ := List.getElem?_of_mem ha
    have hattempt := hfresh.log moves i a hi
    exact ⟨hattempt.toBalanced, (hattempt.enter a.key).toBalanced⟩
  · rw [exceeded_run, Bool.or_eq_true, List.any_eq_true]
    exact or_iff_right Bool.false_ne_true
  · rw [← isVisiting_eq_true, leave]
    split <;> simp [*]

/-- A run that meets a cycle, a misuse, the depth limit and the end of the budget. -/
def mixedRun : List (Move Nat) :=
  [.enter 1, .enter 1, .leave 7, .enter 2, .scope 3, .leave 2, .churn 4 2, .enter 5]

/-- A run with all kinds of answers keeps count. -/
theorem run_lawful_mixedRun : 6 < counterLimit ∧
    ((fresh 2 6).log mixedRun).map Attempt.answer = [.entered, .cycle, .entered, .depthExceeded,
      .entered, .entered, .iterationExceeded] ∧
    ((fresh 2 6).run mixedRun).visiting = [1] ∧ ((fresh 2 6).run mixedRun).depth = 1 ∧
    ((fresh 2 6).run mixedRun).exceeded = true := by
  have hlimit : 6 < counterLimit := by decide
  have hvisiting : ((fresh 2 6).run mixedRun).visiting = [1] := by decide
  obtain ⟨hbalanced, -, -, -, hexceeded, -⟩ := run_lawful 2 6 hlimit mixedRun
  refine ⟨hlimit, by decide, hvisiting, ?_, hexceeded.mpr (by decide)⟩
  rw [hbalanced.depth, hvisiting]
  rfl

end RecursionGuard

end ScriptTyping
