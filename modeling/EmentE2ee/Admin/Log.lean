import Mathlib.Algebra.BigOperators.Group.Finset.Piecewise
import Mathlib.Data.Finset.Card

/-!
# The log and its health check

The proxy keeps the tail of its log in memory. The health check counts the
errors of the last minutes and then the warnings and errors, each under a lock of
its own and against clock readings of its own, and subtracts.
-/
namespace EmentE2ee

/-- How many lines to keep. -/
def CAPACITY : Nat := 500

/-- More severe levels compare as smaller. -/
inductive Level where
  | error | warn | info | debug | trace
  deriving DecidableEq, Repr

def Level.rank : Level → Nat
  | error => 0
  | warn => 1
  | info => 2
  | debug => 3
  | trace => 4

/-- Nanoseconds on the wall clock, before or after the epoch. -/
abbrev SystemTime := Int
/-- Nanoseconds. -/
abbrev Duration := Nat

structure LogLine where
  time : SystemTime
  level : Level
  target : String
  message : String
  deriving DecidableEq, Repr

structure LogBuffer where
  lines : List LogLine
  bound : lines.length ≤ CAPACITY

namespace LogBuffer

def push (b : LogBuffer) (line : LogLine) : LogBuffer where
  lines := (if b.lines.length = CAPACITY then b.lines.tail else b.lines) ++ [line]
  bound := by
    have hb := b.bound
    have hcap : 0 < CAPACITY := by decide
    split_ifs with h
    · rw [List.length_append,List.length_tail,h,List.length_singleton]
      omega
    · rw [List.length_append,List.length_singleton]
      omega

/-- Lines that other tasks push, one after the other. -/
def pushAll (b : LogBuffer) (pushed : List LogLine) : LogBuffer := pushed.foldl push b

/-- The age of a time at a clock reading, unless the time is ahead of the clock. -/
def elapsed (now time : SystemTime) : Option Duration :=
  if time ≤ now then some (now - time).toNat else none

/-- Whether a line at `level` or above is within the window when the clock reads `now`. -/
def counts (level : Level) (window : Duration) (now : SystemTime) (line : LogLine) : Bool :=
  line.level.rank ≤ level.rank && (elapsed now line.time).any fun age => age ≤ window

/-- Lines at `level` or above within the last `window`. The clock is read for
each of them, here for the line at each position. -/
def count_since (b : LogBuffer) (level : Level) (window : Duration) (clock : Nat → SystemTime) :
    Nat :=
  b.lines.zipIdx.countP fun p => counts level window (clock p.2) p.1

end LogBuffer

inductive Status where
  | ok | warn | fail
  deriving DecidableEq, Repr

structure Check where
  id : String
  status : Status
  detail : String
  hint : Option String
  deriving DecidableEq, Repr

/-- Ten minutes. -/
def LOG_WINDOW : Duration := 600 * 1000000000

/-- Between the two counts other tasks push lines. A subtraction below zero is
`none`: it panics where overflows are checked, and wraps around elsewhere. -/
def check_log (logs : LogBuffer) (pushed : List LogLine) (clock₁ clock₂ : Nat → SystemTime) :
    Option Check :=
  let errors := logs.count_since .error LOG_WINDOW clock₁
  let lines := (logs.pushAll pushed).count_since .warn LOG_WINDOW clock₂
  if errors ≤ lines then
    let warnings := lines - errors
    if 0 < errors then
      some ⟨"log",.warn,toString errors ++ " error(s) and " ++ toString warnings ++
        " warning(s) in the last 10 minutes",some "see `ement-e2ee ctl debug logs --level warn`"⟩
    else
      some ⟨"log",.ok,"no errors in the last 10 minutes (" ++ toString warnings ++ " warning(s))",none⟩
  else none

namespace LogBuffer

/-- How many lines have to go before the pushed ones fit. -/
def evicted (b : LogBuffer) (pushed : List LogLine) : Nat :=
  b.lines.length + pushed.length - CAPACITY

theorem pushAll_lines (b : LogBuffer) (pushed : List LogLine) :
    (b.pushAll pushed).lines = (b.lines ++ pushed).drop (b.evicted pushed) := by
  induction pushed generalizing b with
  | nil =>
      have hb : b.evicted [] = 0 := Nat.sub_eq_zero_of_le b.bound
      rw [hb,List.append_nil]
      rfl
  | cons line pushed ih =>
      have hb := b.bound
      have hcap : 0 < CAPACITY := by decide
      rw [pushAll,List.foldl_cons]
      refine (ih (b.push line)).trans ?_
      by_cases h : b.lines.length = CAPACITY
      · have hlines : (b.push line).lines = b.lines.tail ++ [line] := by
          exact congrArg (· ++ [line]) (if_pos h)
        have hne : b.lines ≠ [] := by
          intro he
          rw [he] at h
          exact absurd h (by decide)
        have hevicted : b.evicted (line :: pushed) = (b.push line).evicted pushed + 1 := by
          rw [evicted,evicted,hlines,List.length_append,List.length_tail,List.length_singleton,
            List.length_cons]
          omega
        rw [hevicted,← List.drop_tail,List.tail_append_of_ne_nil hne,hlines,List.append_assoc]
        rfl
      · have hlines : (b.push line).lines = b.lines ++ [line] := by
          exact congrArg (· ++ [line]) (if_neg h)
        have hevicted : b.evicted (line :: pushed) = (b.push line).evicted pushed := by
          rw [evicted,evicted,hlines,List.length_append,List.length_singleton,List.length_cons]
          omega
        rw [hevicted,hlines,List.append_assoc]
        rfl

/-- Counting with a reading for each position is counting positions. -/
theorem countP_zipIdx {α : Type} (p : α → Nat → Bool) (xs : List α) :
    xs.zipIdx.countP (fun x => p x.1 x.2) =
      ((Finset.range xs.length).filter fun j => (xs[j]?).any (p · j) = true).card := by
  rw [Finset.card_filter]
  induction xs using List.reverseRecOn with
  | nil => rfl
  | append_singleton xs x ih =>
      have hbefore : ∀ j ∈ Finset.range xs.length, (xs ++ [x])[j]? = xs[j]? := by
        intro j hj
        exact List.getElem?_append_left (Finset.mem_range.mp hj)
      have hsum := Finset.sum_congr rfl fun j hj =>
        congrArg (fun o : Option α => if o.any (p · j) = true then 1 else 0) (hbefore j hj)
      rw [List.zipIdx_append,List.countP_append,ih,List.length_append,List.length_singleton,
        Finset.sum_range_succ,hsum]
      simp [List.countP_cons]

variable (b : LogBuffer) (pushed : List LogLine) (clock₁ clock₂ : Nat → SystemTime)

/-- The line at a position, of the buffer as it was and then of the pushed ones,
is an error that the first count sees. -/
def First (j : Nat) : Prop :=
  (b.lines[j]?).any (counts .error LOG_WINDOW (clock₁ j)) = true

/-- It is a warning or an error that the second count sees. -/
def Second (j : Nat) : Prop := b.evicted pushed ≤ j ∧
  ((b.lines ++ pushed)[j]?).any
    (counts .warn LOG_WINDOW (clock₂ (j - b.evicted pushed))) = true

instance (j : Nat) : Decidable (First b clock₁ j) := by
  unfold First
  infer_instance

instance (j : Nat) : Decidable (Second b pushed clock₂ j) := by
  unfold Second
  infer_instance

/-- Errors counted first that are gone by the second count: evicted by the pushed
lines, too old by then, or ahead of a clock that was set back. -/
def lost : Finset Nat :=
  (Finset.range (b.lines ++ pushed).length).filter fun j =>
    First b clock₁ j ∧ ¬ Second b pushed clock₂ j

/-- Warnings and errors that only the second count sees. -/
def gained : Finset Nat :=
  (Finset.range (b.lines ++ pushed).length).filter fun j =>
    Second b pushed clock₂ j ∧ ¬ First b clock₁ j

theorem count_first : b.count_since .error LOG_WINDOW clock₁ =
    ((Finset.range (b.lines ++ pushed).length).filter (First b clock₁)).card := by
  rw [count_since,countP_zipIdx fun line j => counts .error LOG_WINDOW (clock₁ j) line]
  congr 1
  ext j
  rw [Finset.mem_filter,Finset.mem_filter,Finset.mem_range,Finset.mem_range]
  refine ⟨fun ⟨hj,h⟩ => ⟨by simp; omega,h⟩,fun ⟨_,h⟩ => ⟨?_,h⟩⟩
  by_contra hj
  rw [First,List.getElem?_eq_none (by omega)] at h
  cases h

theorem count_second : (b.pushAll pushed).count_since .warn LOG_WINDOW clock₂ =
    ((Finset.range (b.lines ++ pushed).length).filter (Second b pushed clock₂)).card := by
  rw [count_since,pushAll_lines,
    countP_zipIdx fun line j => counts .warn LOG_WINDOW (clock₂ j) line]
  -- The second buffer starts where the evicted lines end.
  refine Finset.card_bij (fun j _ => b.evicted pushed + j) ?_ ?_ ?_
  · intro j hj
    rw [Finset.mem_filter,Finset.mem_range,List.length_drop] at hj
    obtain ⟨hlen,hcounts⟩ := hj
    rw [List.getElem?_drop] at hcounts
    rw [Finset.mem_filter,Finset.mem_range,Second,Nat.add_sub_cancel_left]
    exact ⟨by omega,Nat.le_add_right _ _,hcounts⟩
  · intro i _ j _ h
    exact Nat.add_left_cancel h
  · intro j hj
    rw [Finset.mem_filter,Finset.mem_range,Second] at hj
    obtain ⟨hlen,hle,hcounts⟩ := hj
    refine ⟨j - b.evicted pushed,?_,Nat.add_sub_cancel' hle⟩
    rw [Finset.mem_filter,Finset.mem_range,List.length_drop,List.getElem?_drop,
      Nat.add_sub_cancel' hle]
    exact ⟨by omega,hcounts⟩

theorem lost_le_gained : (lost b pushed clock₁ clock₂).card ≤ (gained b pushed clock₁ clock₂).card ↔
    b.count_since .error LOG_WINDOW clock₁ ≤
      (b.pushAll pushed).count_since .warn LOG_WINDOW clock₂ := by
  rw [count_first b pushed,count_second,lost,gained,Finset.filter_and_not,Finset.filter_and_not]
  exact Finset.card_sdiff_le_card_sdiff_iff

/-- The subtraction of the health check stays above zero if and only if the errors
lost between the two counts are no more than the lines that only the second sees. -/
theorem check_log_survives :
    (b.count_since .error LOG_WINDOW clock₁ ≤
        (b.pushAll pushed).count_since .warn LOG_WINDOW clock₂ ↔
      (b.lost pushed clock₁ clock₂).card ≤ (b.gained pushed clock₁ clock₂).card) ∧
    ((check_log b pushed clock₁ clock₂).isSome = true ↔
      (b.lost pushed clock₁ clock₂).card ≤ (b.gained pushed clock₁ clock₂).card) := by
  have hcounts := (b.lost_le_gained pushed clock₁ clock₂).symm
  refine ⟨hcounts,?_⟩
  rw [← hcounts,check_log]
  dsimp only
  by_cases h : b.count_since .error LOG_WINDOW clock₁ ≤
      (b.pushAll pushed).count_since .warn LOG_WINDOW clock₂
  · rw [if_pos h]
    refine iff_of_true ?_ h
    split_ifs <;> rfl
  · rw [if_neg h]
    exact iff_of_false nofun h

/-- One error, as old as the window reaches. -/
def oneError : LogBuffer := ⟨[⟨0,.error,"ement_e2ee","sync failed"⟩],by decide⟩

/-- A nanosecond later the error is too old for the second count. -/
theorem old_error_underflows :
    (oneError.pushAll []).count_since .warn LOG_WINDOW (fun _ => 600 * 1000000000 + 1) <
        oneError.count_since .error LOG_WINDOW (fun _ => 600 * 1000000000) ∧
      check_log oneError [] (fun _ => 600 * 1000000000) (fun _ => 600 * 1000000000 + 1) = none := by
  decide

end LogBuffer
end EmentE2ee
