import Mathlib.Algebra.Order.Field.Rat
import Mathlib.Algebra.Order.BigOperators.Group.List
import Mathlib.Data.List.Induction
import Mathlib.Tactic.Linarith
import Mathlib.Tactic.FieldSimp
import Mathlib.Tactic.Ring

/-! `TokenBucket`, which delays reads and writes so that they keep to a rate. -/
namespace Benji

structure TokenBucket where
  tokens : ℚ
  rate : ℚ
  last : ℚ
  deriving DecidableEq

namespace TokenBucket

/-- `__init__` at the time `now`. -/
def create (now : ℚ) : TokenBucket := ⟨0, 0, now⟩

def setRate (b : TokenBucket) (rate : ℚ) : TokenBucket := { b with rate := rate, tokens := rate }

/-- The tokens there are at the time `now`. -/
def refill (b : TokenBucket) (now : ℚ) : ℚ :=
  let tokens := b.tokens + (now - b.last) * b.rate
  if tokens > b.rate then b.rate else tokens

/-- The delay returned and what the bucket is afterwards. -/
def consume (b : TokenBucket) (now : ℚ) (tokens : ℕ) : ℚ × TokenBucket :=
  if b.rate = 0 then (0, b)
  else
    let left := b.refill now - tokens
    (if left ≥ 0 then 0 else -left / b.rate, { b with tokens := left, last := now })

/-- A call of `consume` with the clock it reads. -/
structure Call where
  now : ℚ
  tokens : ℕ

/-- The bucket after some calls, and each of them with its delay. -/
structure Run where
  bucket : TokenBucket
  served : List (Call × ℚ)

def Run.step (s : Run) (c : Call) : Run :=
  ⟨(s.bucket.consume c.now c.tokens).2,
    s.served ++ [(c, (s.bucket.consume c.now c.tokens).1)]⟩

def run (b : TokenBucket) (calls : List Call) : Run := calls.foldl Run.step ⟨b, []⟩

/-- The tokens of the calls that are over at the time `time`. -/
def Run.released (s : Run) (time : ℚ) : ℕ :=
  ((s.served.filter fun p => p.1.now + p.2 ≤ time).map fun p => p.1.tokens).sum

def Run.consumed (s : Run) : ℕ := (s.served.map fun p => p.1.tokens).sum

section
variable {b : TokenBucket} {s : Run} {c : Call} {calls : List Call} {rate start now time : ℚ}
  {tokens : ℕ}

theorem consume_of_pos (hb : 0 < b.rate) : b.consume now tokens =
    (if b.refill now - tokens ≥ 0 then 0 else -(b.refill now - tokens) / b.rate,
      { b with tokens := b.refill now - tokens, last := now }) := by
  rw [consume, if_neg hb.ne']

theorem refill_le_rate (b : TokenBucket) (now : ℚ) : b.refill now ≤ b.rate := by
  simp only [refill]
  split_ifs with h
  · exact le_refl b.rate
  · exact not_lt.mp h

theorem refill_le (b : TokenBucket) (now : ℚ) :
    b.refill now ≤ b.tokens + (now - b.last) * b.rate := by
  simp only [refill]
  split_ifs with h
  · exact le_of_lt h
  · exact le_refl _

theorem run_append (b : TokenBucket) (calls : List Call) (c : Call) :
    run b (calls ++ [c]) = (run b calls).step c := by
  rw [run, List.foldl_append, List.foldl_cons, List.foldl_nil, run]

theorem consumed_step (s : Run) (c : Call) : (s.step c).consumed = s.consumed + c.tokens := by
  simp [Run.consumed, Run.step]

theorem released_le_consumed (s : Run) (time : ℚ) : s.released time ≤ s.consumed := by
  apply List.Sublist.sum_le_sum
  · exact List.filter_sublist.map _
  · intro n _
    exact Nat.zero_le n

/-- What links the tokens, the clock and all that was consumed. The debt of a call that waits is
in the tokens already. -/
structure Invariant (rate start : ℚ) (s : Run) : Prop where
  rate_eq : s.bucket.rate = rate
  tokens_le : s.bucket.tokens ≤ rate
  consumed_le : s.consumed + s.bucket.tokens ≤ rate * (1 + (s.bucket.last - start))

theorem invariant_create (rate start : ℚ) :
    Invariant rate start ⟨(create start).setRate rate, []⟩ where
  rate_eq := rfl
  tokens_le := le_refl rate
  consumed_le := by simp [Run.consumed, create, setRate]

theorem invariant_step (hr : 0 < rate) (h : Invariant rate start s) :
    Invariant rate start (s.step c) := by
  obtain ⟨hrate, -, hle⟩ := h
  have hb : 0 < s.bucket.rate := hrate ▸ hr
  have hstep : (s.step c).bucket =
      { s.bucket with tokens := s.bucket.refill c.now - c.tokens, last := c.now } := by
    rw [Run.step, consume_of_pos hb]
  have hn : (0 : ℚ) ≤ c.tokens := Nat.cast_nonneg c.tokens
  constructor
  · rw [hstep]
    exact hrate
  · have hcap := refill_le_rate s.bucket c.now
    rw [hrate] at hcap
    rw [hstep]
    show s.bucket.refill c.now - c.tokens ≤ rate
    linarith
  · have hfill := refill_le s.bucket c.now
    rw [hrate] at hfill
    rw [consumed_step, hstep]
    push_cast
    show (s.consumed : ℚ) + c.tokens + (s.bucket.refill c.now - c.tokens) ≤
      rate * (1 + (c.now - start))
    linarith

theorem invariant_run (hr : 0 < rate) (calls : List Call) :
    Invariant rate start (run ((create start).setRate rate) calls) := by
  induction calls using List.reverseRecOn with
  | nil => exact invariant_create rate start
  | append_singleton calls c ih =>
    rw [run_append]
    exact invariant_step hr ih

/-- A call that is over bounds everything consumed up to it. -/
theorem consumed_le_of_over (hr : 0 < rate) (h : Invariant rate start s)
    (hover : c.now + (s.bucket.consume c.now c.tokens).1 ≤ time) :
    ((s.step c).consumed : ℚ) ≤ rate * (1 + (time - start)) := by
  have hb : 0 < s.bucket.rate := h.rate_eq ▸ hr
  have hs := (invariant_step (c := c) hr h).consumed_le
  have hbucket : (s.step c).bucket =
      { s.bucket with tokens := s.bucket.refill c.now - c.tokens, last := c.now } := by
    rw [Run.step, consume_of_pos hb]
  rw [hbucket] at hs
  rw [consume_of_pos hb, h.rate_eq] at hover
  simp only at hs hover
  generalize s.bucket.refill c.now - c.tokens = left at hs hover
  -- The delay is just long enough for the rate to pay back what is owed.
  have hdebt : -left ≤ rate * (time - c.now) := by
    split_ifs at hover with hl
    · have hpast : 0 ≤ rate * (time - c.now) := by
        apply mul_nonneg hr.le
        linarith
      linarith
    · have hdelay : -left / rate ≤ time - c.now := by linarith
      rw [div_le_iff₀ hr, mul_comm] at hdelay
      exact hdelay
  linarith

theorem released_step (s : Run) (c : Call) (time : ℚ) :
    (s.step c).released time = s.released time +
      if c.now + (s.bucket.consume c.now c.tokens).1 ≤ time then c.tokens else 0 := by
  simp only [Run.released, Run.step, List.filter_append, List.map_append, List.sum_append]
  congr 1
  split_ifs with h <;> simp [h]

/-- Whatever the clock reads, the tokens stay below the rate, and the calls that are over at a time
have together consumed no more than the rate allows up to it. -/
theorem keeps_rate (rate start : ℚ) (hr : 0 < rate) (calls : List Call) :
    (run ((create start).setRate rate) calls).bucket.tokens ≤ rate ∧
      ∀ time : ℚ, ((run ((create start).setRate rate) calls).released time : ℚ) ≤
        max 0 (rate * (1 + (time - start))) := by
  constructor
  · exact (invariant_run hr calls).tokens_le
  · intro time
    induction calls using List.reverseRecOn with
    | nil => exact le_max_left 0 _
    | append_singleton calls c ih =>
      have h : Invariant rate start (run ((create start).setRate rate) calls) :=
        invariant_run hr calls
      rw [run_append]
      by_cases hover : c.now +
          ((run ((create start).setRate rate) calls).bucket.consume c.now c.tokens).1 ≤ time
      · have hall : (((run ((create start).setRate rate) calls).step c).released time : ℚ) ≤
            ((run ((create start).setRate rate) calls).step c).consumed := by
          exact_mod_cast released_le_consumed _ time
        exact le_max_of_le_right (hall.trans (consumed_le_of_over hr h hover))
      · rw [released_step, if_neg hover, Nat.add_zero]
        exact ih

theorem keeps_rate_example :
    (0 : ℚ) < 2 ∧ (run ((create 0).setRate 2) [⟨1, 5⟩, ⟨1, 1⟩]).bucket.tokens ≤ 2 ∧
      ∀ time : ℚ, ((run ((create 0).setRate 2) [⟨1, 5⟩, ⟨1, 1⟩]).released time : ℚ) ≤
        max 0 (2 * (1 + (time - 0))) :=
  ⟨by norm_num, keeps_rate 2 0 (by norm_num) [⟨1, 5⟩, ⟨1, 1⟩]⟩

example : (run ((create 0).setRate 2) [⟨1, 5⟩, ⟨1, 1⟩]).served.map Prod.snd = [3 / 2, 2] := by
  decide +kernel

/-- More than a second before the bucket was created the rate allows less than nothing. -/
theorem bound_negative : ¬ ∀ (rate start : ℚ) (calls : List Call), 0 < rate →
    (start :: calls.map Call.now).Pairwise (· ≤ ·) →
    ∀ time : ℚ, ((run ((create start).setRate rate) calls).released time : ℚ) ≤
      rate * (1 + (time - start)) := by
  intro h
  have hneg := h 1 0 [] (by norm_num) (by simp) (-2)
  norm_num [run, Run.released] at hneg

end
end TokenBucket
end Benji
