import Benji.Io.Rbdaio

/-! Every completion carries the block of its request. A round of submissions starts with at most
one entry in the queue or at most one request short of the limit, so it issues at most one
request and the variable that the callbacks share is written once. -/
namespace Benji.Rbdaio
open Lib

variable {κ α ρ δ ω : Type} {d : Driver κ α ρ δ ω} {l l' : Lane κ α ρ δ ω}

theorem perm_of_find? {p : α → Bool} {as : List α} {a : α} (h : as.find? p = some a) :
    as.Perm (a :: as.eraseP p) := by
  induction as with
  | nil => cases h
  | cons b bs ih =>
    by_cases hb : p b = true
    · rw [List.find?_cons_of_pos hb] at h
      rw [List.eraseP_cons_of_pos hb, Option.some.inj h]
    · rw [List.find?_cons_of_neg hb] at h
      rw [List.eraseP_cons_of_neg hb]
      exact ((ih h).cons b).trans (.swap a b _)

/-- The completion is the answer to its request and carries the block of it. -/
def Completion.Answers (c : Completion κ δ) (d : Driver κ α ρ δ ω) (issued : List α) : Prop :=
  ∃ item, issued[c.number]? = some item ∧ c.block = d.block item ∧
    c.answer = d.answer c.number (d.arguments item)

theorem Completion.Answers.mono {c : Completion κ δ} {issued : List α} (item : α)
    (h : c.Answers d issued) : c.Answers d (issued ++ [item]) := by
  obtain ⟨it, hit, hrest⟩ := h
  have hlt := (List.getElem?_eq_some_iff.mp hit).1
  refine ⟨it, ?_, hrest⟩
  rw [List.getElem?_append_left hlt]
  exact hit

/-- The popped entry that is not issued yet. -/
def Pc.item : Pc α → List α
  | .issuing _ item _ => [item]
  | _ => []

/-- The requests that are issued and not counted yet. -/
def Pc.uncounted : Pc α → ℕ
  | .issued _ _ => 1
  | _ => 0

/-- The requests that the round is about to count. -/
def Pc.reserved : Pc α → ℕ
  | .issuing _ _ _ => 1
  | .issued _ _ => 1
  | _ => 0

namespace Lane

/-- The numbers of the requests with librbd, in the completion queue and taken from it. -/
def numbers (l : Lane κ α ρ δ ω) : List ℕ :=
  l.requests.map Request.number ++ l.completed.map Completion.number ++
    l.reported.map fun p => p.1.number

/-- Submitting has nothing left to do. -/
def Full (d : Driver κ α ρ δ ω) (l : Lane κ α ρ δ ω) : Prop :=
  l.queue = [] ∨ d.simultaneous ≤ l.outstanding

/-- At most one request can be issued. -/
def Short (d : Driver κ α ρ δ ω) (l : Lane κ α ρ δ ω) : Prop :=
  l.queue = [] ∨ d.simultaneous ≤ l.outstanding + 1

/-- What a round of submissions finds at each of its points. -/
inductive Round (d : Driver κ α ρ δ ω) (l : Lane κ α ρ δ ω) : Pc α → Prop
  | idle : l.Short d → Round d l .idle
  | collecting (timeout : Option ℤ) : l.Full d → Round d l (.collecting timeout)
  | submitting (frame : ℕ) (caller : Caller) :
      frame < l.frames → l.queue.length ≤ 1 ∨ d.simultaneous ≤ l.outstanding + 1 →
      (∀ r ∈ l.requests, r.frame = frame → l.Full d) → Round d l (.submitting frame caller)
  | issuing (frame : ℕ) (item : α) (caller : Caller) :
      frame < l.frames → l.Short d → (∀ r ∈ l.requests, r.frame ≠ frame) →
      l.cells frame = some (d.block item) → Round d l (.issuing frame item caller)
  | issued (frame : ℕ) (caller : Caller) :
      frame < l.frames → l.Short d → Round d l (.issued frame caller)

structure Inv (d : Driver κ α ρ δ ω) (l : Lane κ α ρ δ ω) : Prop where
  semaphore : ∀ n, l.slots = some n → n + l.releasing + l.requests.length = d.simultaneous
  count : l.requests.length + l.completed.length = l.outstanding + l.pc.uncounted
  limit : l.outstanding + l.pc.reserved ≤ d.simultaneous
  round : l.Round d l.pc
  tasks : l.suspended.length + l.completed.length ≤ l.unfinishedTasks
  frame : ∀ r ∈ l.requests, r.frame < l.frames
  cell : ∀ r ∈ l.requests, ∃ item, l.issued[r.number]? = some item ∧
    l.cells r.frame = some (d.block item) ∧ r.arguments = d.arguments item
  completed : ∀ c ∈ l.completed, c.Answers d l.issued
  reported : ∀ p ∈ l.reported, p.1.Answers d l.issued ∧ p.2 = d.outcome p.1
  numbers : l.numbers.Perm (List.range l.issued.length)
  order : l.issued ++ l.pc.item ++ l.queue = l.submitted
  faults : l.faults = 0

theorem isIdle_iff : l.isIdle = true ↔ l.pc = .idle := by
  unfold isIdle
  cases l.pc <;> simp

theorem Short.of_full (h : l.Full d) : l.Short d := by
  cases h with
  | inl hq => exact .inl hq
  | inr ho => exact .inr (by omega)

/-- A round does not see what the callbacks do. -/
theorem Round.mono {pc : Pc α} (h : l.Round d pc) (hq : l'.queue = l.queue)
    (ho : l'.outstanding = l.outstanding) (hf : l'.frames = l.frames) (hc : l'.cells = l.cells)
    (hr : ∀ r ∈ l'.requests, r ∈ l.requests) : l'.Round d pc := by
  have hfull : l.Full d → l'.Full d := by
    intro h
    rw [Full, hq, ho]
    exact h
  have hshort : l.Short d → l'.Short d := by
    intro h
    rw [Short, hq, ho]
    exact h
  cases h with
  | idle hs => exact .idle (hshort hs)
  | collecting timeout hs => exact .collecting timeout (hfull hs)
  | submitting frame caller hlt hs hu =>
    refine .submitting frame caller (hf ▸ hlt) ?_ fun r h => fun heq => hfull (hu r (hr r h) heq)
    rw [hq, ho]
    exact hs
  | issuing frame item caller hlt hs hu hcell =>
    exact .issuing frame item caller (hf ▸ hlt) (hshort hs) (fun r h => hu r (hr r h))
      (hc ▸ hcell)
  | issued frame caller hlt hs => exact .issued frame caller (hf ▸ hlt) (hshort hs)

theorem Inv.short (h : l.Inv d) (hpc : l.pc = .idle) : l.Short d := by
  have hround := h.round
  rw [hpc] at hround
  cases hround with
  | idle hs => exact hs

/-- A call of the submitting loop starts at a place where at most one entry can be issued. -/
theorem Inv.submitAio {caller : Caller} (h : l.Inv d) (hpc : l.pc = .idle) :
    (l.submitAio caller).Inv d := by
  have hcount := h.count
  have hlimit := h.limit
  have horder := h.order
  rw [hpc] at hcount hlimit horder
  refine { h with count := hcount, limit := hlimit, order := horder, round := ?_, frame := ?_ }
  · refine .submitting _ _ (Nat.lt_succ_self _) ?_ ?_
    · cases h.short hpc with
      | inl hq => exact .inl (hq ▸ Nat.zero_le _)
      | inr ho => exact .inr ho
    · intro r hr heq
      exact absurd heq (Nat.ne_of_lt (h.frame r hr))
  · intro r hr
    exact Nat.lt_succ_of_lt (h.frame r hr)

theorem Inv.submit {item : α} (h : l.Inv d) (hpc : l.pc = .idle) : (l.submit item).Inv d := by
  have hcount := h.count
  have hlimit := h.limit
  have horder := h.order
  rw [hpc] at hcount hlimit horder
  refine { h with count := hcount, limit := hlimit, round := ?_, frame := ?_, order := ?_ }
  · refine .submitting _ _ (Nat.lt_succ_self _) ?_ ?_
    · cases h.short hpc with
      | inl hq =>
        refine .inl ?_
        show (l.queue ++ [item]).length ≤ 1
        rw [hq, List.nil_append, List.length_singleton]
      | inr ho => exact .inr ho
    · intro r hr heq
      exact absurd heq (Nat.ne_of_lt (h.frame r hr))
  · intro r hr
    exact Nat.lt_succ_of_lt (h.frame r hr)
  · show l.issued ++ [] ++ (l.queue ++ [item]) = l.submitted ++ [item]
    rw [← horder]
    exact (List.append_assoc _ _ _).symm

theorem Inv.loop {timeout : Option ℤ} (h : l.Inv d) (hpc : l.pc = .idle) :
    (l.loop timeout).Inv d := by
  unfold Lane.loop
  split
  · exact h
  · exact h.submitAio hpc

theorem Inv.taskDone {timeout : Option ℤ} (h : l.Inv d) (ht : timeout ∈ l.suspended) :
    (l.taskDone timeout).Inv d := by
  refine { h with round := h.round.mono rfl rfl rfl rfl fun r hr => hr, tasks := ?_ }
  have hlen : (l.suspended.eraseP fun t => t = timeout).length + 1 = l.suspended.length :=
    List.length_eraseP_add_one ht (by simp)
  have htasks := h.tasks
  show (l.suspended.eraseP fun t => t = timeout).length + l.completed.length ≤
    l.unfinishedTasks - 1
  omega

theorem Inv.unfinishedTasks_pos {timeout : Option ℤ} (h : l.Inv d) (ht : timeout ∈ l.suspended) :
    l.unfinishedTasks ≠ 0 := by
  have hpos := List.length_pos_of_mem ht
  have htasks := h.tasks
  omega

/-- The round ends where nothing more can be issued. -/
theorem Inv.leave {frame : ℕ} {caller : Caller} (h : l.Inv d)
    (hpc : l.pc = .submitting frame caller) (hfull : l.Full d) :
    { l with pc := caller.pc }.Inv d := by
  have hcount := h.count
  have hlimit := h.limit
  have horder := h.order
  rw [hpc] at hcount hlimit horder
  cases caller with
  | submit =>
    exact { h with
      count := hcount
      limit := hlimit
      order := horder
      round := .idle (Short.of_full hfull) }
  | iteration timeout =>
    exact { h with
      count := hcount
      limit := hlimit
      order := horder
      round := .collecting timeout hfull }

/-- An entry is popped only where no callback reads the variable of the round. -/
theorem Inv.pop {frame : ℕ} {caller : Caller} {item : α} {queue : List α} (h : l.Inv d)
    (hpc : l.pc = .submitting frame caller) (hqueue : l.queue = item :: queue)
    (hfree : l.outstanding < d.simultaneous) :
    { l with
      queue
      cells := Function.update l.cells frame (some (d.block item))
      pc := .issuing frame item caller }.Inv d := by
  have hround := h.round
  have hcount := h.count
  have horder := h.order
  rw [hpc] at hround hcount horder
  cases hround with
  | submitting _ _ hframe hshort hused =>
    have hunused : ∀ r ∈ l.requests, r.frame ≠ frame := by
      intro r hr heq
      cases hused r hr heq with
      | inl hq => rw [hq] at hqueue; cases hqueue
      | inr ho => omega
    refine { h with count := hcount, limit := hfree, round := ?_, cell := ?_, order := ?_ }
    · refine .issuing frame item caller hframe ?_ hunused (Function.update_self ..)
      cases hshort with
      | inl hlen =>
        rw [hqueue, List.length_cons] at hlen
        have hnil : queue = [] := List.eq_nil_of_length_eq_zero (by omega)
        exact .inl hnil
      | inr ho => exact .inr ho
    · intro r hr
      obtain ⟨it, hit, hcell, harg⟩ := h.cell r hr
      refine ⟨it, hit, ?_, harg⟩
      show Function.update l.cells frame _ r.frame = _
      rw [Function.update_of_ne (hunused r hr)]
      exact hcell
    · rw [hqueue] at horder
      rw [← horder]
      show l.issued ++ [item] ++ queue = l.issued ++ [] ++ item :: queue
      rw [List.append_nil, List.append_assoc, List.singleton_append]

theorem Inv.issue {frame : ℕ} {caller : Caller} {item : α} {slots : Option ℕ} (h : l.Inv d)
    (hpc : l.pc = .issuing frame item caller) (hslots : acquire l.slots = some slots) :
    { l with
      slots
      requests := l.requests ++ [Request.mk l.issued.length frame (d.arguments item)]
      issued := l.issued ++ [item]
      pc := .issued frame caller }.Inv d := by
  have hround := h.round
  have hcount := h.count
  have hlimit := h.limit
  have horder := h.order
  rw [hpc] at hround hcount hlimit horder
  cases hround with
  | issuing _ _ _ hframe hshort hunused hcell =>
    refine {
      semaphore := ?_, count := ?_, limit := hlimit, round := .issued frame caller hframe hshort,
      tasks := h.tasks, frame := ?_, cell := ?_, completed := fun c hc => (h.completed c hc).mono _,
      reported := fun p hp => ⟨(h.reported p hp).1.mono _, (h.reported p hp).2⟩,
      numbers := ?_, order := ?_, faults := h.faults }
    · rintro n ⟨⟩
      have hsem := h.semaphore
      cases hl : l.slots with
      | none => rw [hl, acquire] at hslots; cases hslots
      | some m =>
        cases m with
        | zero => rw [hl, acquire] at hslots; cases hslots
        | succ k =>
          have heq := hsem (k + 1) hl
          rw [hl, acquire] at hslots
          cases hslots
          show n + l.releasing + (l.requests ++ [_]).length = d.simultaneous
          rw [List.length_append, List.length_singleton]
          omega
    · rw [List.length_append, List.length_singleton]
      show l.requests.length + 1 + l.completed.length = l.outstanding + 1
      have hzero : l.requests.length + l.completed.length = l.outstanding + 0 := hcount
      omega
    · intro r hr
      rw [List.mem_append, List.mem_singleton] at hr
      cases hr with
      | inl hr => exact h.frame r hr
      | inr heq =>
        rw [heq]
        exact hframe
    · intro r hr
      rw [List.mem_append, List.mem_singleton] at hr
      cases hr with
      | inl hr =>
        obtain ⟨it, hit, hrest⟩ := h.cell r hr
        have hlt := (List.getElem?_eq_some_iff.mp hit).1
        exact ⟨it, by rw [List.getElem?_append_left hlt, hit], hrest⟩
      | inr heq =>
        rw [heq]
        exact ⟨item, List.getElem?_concat_length, hcell, rfl⟩
    · have hnumbers := h.numbers
      unfold Lane.numbers at hnumbers ⊢
      rw [List.length_append, List.length_singleton, List.range_succ, List.map_append,
        List.append_assoc, List.append_assoc]
      rw [List.append_assoc] at hnumbers
      refine (List.Perm.append_left _ List.perm_append_comm).trans ?_
      rw [← List.append_assoc]
      exact hnumbers.append_right _
    · rw [← horder]
      show l.issued ++ [item] ++ [] ++ l.queue = l.issued ++ [item] ++ l.queue
      rw [List.append_nil]

theorem Inv.counted {frame : ℕ} {caller : Caller} (h : l.Inv d)
    (hpc : l.pc = .issued frame caller) :
    { l with outstanding := l.outstanding + 1, pc := .submitting frame caller }.Inv d := by
  have hround := h.round
  have hcount := h.count
  have hlimit := h.limit
  have horder := h.order
  rw [hpc] at hround hcount hlimit horder
  cases hround with
  | issued _ _ hframe hshort =>
    have hfull : { l with
        outstanding := l.outstanding + 1, pc := .submitting frame caller }.Full d := hshort
    refine { h with count := hcount, limit := hlimit, order := horder, round := ?_ }
    refine .submitting frame caller hframe ?_ fun _ _ _ => hfull
    cases hshort with
    | inl hq => exact .inl (hq ▸ Nat.zero_le _)
    | inr ho => exact .inr (by show _ ≤ l.outstanding + 1 + 1; omega)

theorem Inv.advanceSubmitting {frame : ℕ} {caller : Caller} (h : l.Inv d)
    (hpc : l.pc = .submitting frame caller) (hs : l.advance d = some l') : l'.Inv d := by
  unfold Lane.advance at hs
  rw [hpc] at hs
  dsimp only at hs
  split at hs
  next hqueue =>
    rw [← Option.some.inj hs]
    exact h.leave hpc (.inl hqueue)
  next item queue hqueue =>
    split at hs
    next hfree =>
      rw [← Option.some.inj hs]
      exact h.pop hpc hqueue hfree
    next hfull =>
      rw [← Option.some.inj hs]
      exact h.leave hpc (.inr (Nat.le_of_not_lt hfull))

/-- What an iteration takes counts as outstanding, so the assertion holds. -/
theorem Inv.report {timeout : Option ℤ} {c : Completion κ δ} {completed : List (Completion κ δ)}
    (h : l.Inv d) (hpc : l.pc = .collecting timeout) (hcompleted : l.completed = c :: completed) :
    ({ l with completed }.report d timeout c).Inv d := by
  have hround := h.round
  have hcount := h.count
  have hlimit := h.limit
  have horder := h.order
  have htasks := h.tasks
  have hnumbers := h.numbers
  rw [hpc] at hround hcount hlimit horder
  rw [hcompleted, List.length_cons] at hcount htasks
  have hcount : l.requests.length + (completed.length + 1) = l.outstanding + 0 := hcount
  have hlimit : l.outstanding + 0 ≤ d.simultaneous := hlimit
  have hanswers : c.Answers d l.issued := h.completed c (hcompleted ▸ List.mem_cons_self)
  have hkept : { l with
      completed
      outstanding := l.outstanding - 1
      reported := l.reported ++ [(c, d.outcome c)]
      pc := .idle }.Inv d := by
    refine { h with
      count := ?_, limit := ?_, round := ?_, tasks := ?_, order := horder
      completed := ?_, reported := ?_, numbers := ?_ }
    · show l.requests.length + completed.length = l.outstanding - 1 + 0
      omega
    · show l.outstanding - 1 + 0 ≤ d.simultaneous
      omega
    · cases hround with
      | collecting _ hfull =>
        refine .idle ?_
        cases hfull with
        | inl hq => exact .inl hq
        | inr ho =>
          refine .inr ?_
          show d.simultaneous ≤ l.outstanding - 1 + 1
          omega
    · show l.suspended.length + completed.length ≤ l.unfinishedTasks
      omega
    · intro c' hc'
      exact h.completed c' (hcompleted ▸ List.mem_cons_of_mem _ hc')
    · intro p hp
      rw [List.mem_append, List.mem_singleton] at hp
      cases hp with
      | inl hp => exact h.reported p hp
      | inr heq =>
        rw [heq]
        exact ⟨hanswers, rfl⟩
    · unfold Lane.numbers at hnumbers ⊢
      rw [hcompleted, List.map_cons] at hnumbers
      refine List.Perm.trans ?_ hnumbers
      rw [List.map_append, List.append_assoc, List.append_assoc]
      refine List.Perm.append_left _ ?_
      rw [List.cons_append, ← List.append_assoc]
      exact List.perm_append_singleton _ _
  unfold Lane.report
  split
  next hzero => exact absurd (show l.outstanding = 0 from hzero) (by omega)
  · have hyield : { l with
        completed
        outstanding := l.outstanding - 1
        reported := l.reported ++ [(c, d.outcome c)]
        suspended := timeout :: l.suspended
        pc := .idle }.Inv d := by
      refine { hkept with
        round := hkept.round.mono rfl rfl rfl rfl fun _ hr => hr, tasks := ?_ }
      show (timeout :: l.suspended).length + completed.length ≤ l.unfinishedTasks
      rw [List.length_cons]
      omega
    dsimp only
    split
    · exact hkept
    · exact hyield

theorem Inv.collect {timeout : Option ℤ} (h : l.Inv d) (hpc : l.pc = .collecting timeout)
    (hs : l.collect d timeout = some l') : l'.Inv d := by
  have hround := h.round
  have hcount := h.count
  have hlimit := h.limit
  have horder := h.order
  rw [hpc] at hround hcount hlimit horder
  have hended : { l with pc := .idle }.Inv d := by
    cases hround with
    | collecting _ hfull =>
      exact { h with
        count := hcount
        limit := hlimit
        order := horder
        round := .idle (Short.of_full hfull) }
  unfold Lane.collect at hs
  split at hs
  · rw [← Option.some.inj hs]
    exact hended
  · split at hs
    · rw [Option.ite_none_left_eq_some] at hs
      rw [← Option.some.inj hs.2]
      exact hended
    next c completed hcompleted =>
      rw [← Option.some.inj hs]
      exact h.report hpc hcompleted

theorem Inv.advance (h : l.Inv d) (hs : l.advance d = some l') : l'.Inv d := by
  cases hpc : l.pc with
  | idle =>
    unfold Lane.advance at hs
    rw [hpc] at hs
    cases hs
  | submitting frame caller => exact h.advanceSubmitting hpc hs
  | issuing frame item caller =>
    unfold Lane.advance at hs
    rw [hpc] at hs
    obtain ⟨slots, hslots, heq⟩ := Option.map_eq_some_iff.mp hs
    rw [← heq]
    exact h.issue hpc hslots
  | issued frame caller =>
    unfold Lane.advance at hs
    rw [hpc] at hs
    rw [← Option.some.inj hs]
    exact h.counted hpc
  | collecting timeout =>
    unfold Lane.advance at hs
    rw [hpc] at hs
    exact h.collect hpc hs

/-- The callback reads the variable of its round, which still holds the block of its request. -/
theorem Inv.callback {number : ℕ} (h : l.Inv d) (hs : l.callback d number = some l') :
    l'.Inv d := by
  obtain ⟨r, hfind, heq⟩ := Option.map_eq_some_iff.mp hs
  have hmem := List.mem_of_find?_eq_some hfind
  have hnumber : r.number = number := by simpa using List.find?_some hfind
  have hperm := perm_of_find? hfind
  have hlen := hperm.length_eq
  rw [List.length_cons] at hlen
  obtain ⟨item, hitem, hcell, harg⟩ := h.cell r hmem
  have hsub : ∀ r' ∈ l.requests.eraseP fun r => r.number = number, r' ∈ l.requests :=
    fun r' hr' => List.mem_of_mem_eraseP hr'
  dsimp only at heq
  rw [hcell] at heq
  rw [← heq]
  refine { h with
    semaphore := ?_, count := ?_, round := ?_, tasks := ?_, frame := ?_, cell := ?_
    completed := ?_, numbers := ?_ }
  · intro n hn
    have hsem := h.semaphore n hn
    show n + (if l.slots.isSome then l.releasing + 1 else l.releasing) +
      (l.requests.eraseP fun r => r.number = number).length = d.simultaneous
    rw [show l.slots = some n from hn, Option.isSome_some, if_pos rfl]
    omega
  · have hcount := h.count
    show (l.requests.eraseP fun r => r.number = number).length +
      (l.completed ++ [_]).length = l.outstanding + l.pc.uncounted
    rw [List.length_append, List.length_singleton]
    omega
  · exact h.round.mono rfl rfl rfl rfl hsub
  · have htasks := h.tasks
    show l.suspended.length + (l.completed ++ [_]).length ≤ l.unfinishedTasks + 1
    rw [List.length_append, List.length_singleton]
    omega
  · intro r' hr'
    exact h.frame r' (hsub r' hr')
  · intro r' hr'
    exact h.cell r' (hsub r' hr')
  · intro c hc
    rw [List.mem_append, List.mem_singleton] at hc
    cases hc with
    | inl hc => exact h.completed c hc
    | inr hc =>
      rw [hc]
      refine ⟨item, hnumber ▸ hitem, rfl, ?_⟩
      show d.answer number r.arguments = d.answer number (d.arguments item)
      rw [harg]
  · have hnumbers := h.numbers
    unfold Lane.numbers at hnumbers ⊢
    refine List.Perm.trans ?_ hnumbers
    have hmap := hperm.map Request.number
    rw [List.map_cons, hnumber] at hmap
    rw [List.map_append, List.map_singleton]
    refine List.Perm.append_right _ ?_
    refine List.Perm.trans ?_ (hmap.symm.append_right _)
    rw [← List.append_assoc]
    exact List.perm_append_singleton _ _

theorem Inv.release (h : l.Inv d) (hs : l.release d = some l') : l'.Inv d := by
  unfold Lane.release at hs
  rw [Option.ite_none_left_eq_some] at hs
  obtain ⟨hpos, hs⟩ := hs
  obtain ⟨n, hn, heq⟩ := Option.map_eq_some_iff.mp hs
  have hsem := h.semaphore n hn
  rw [if_pos (by omega)] at heq
  rw [← heq]
  refine { h with
    semaphore := ?_, round := h.round.mono rfl rfl rfl rfl fun _ hr => hr }
  rintro m ⟨⟩
  show n + 1 + (l.releasing - 1) + l.requests.length = d.simultaneous
  omega

theorem Inv.step {e : Event α} (h : l.Inv d) (hs : l.step d e = some l') : l'.Inv d := by
  cases e with
  | submit item =>
    obtain ⟨hidle, heq⟩ := Option.ite_none_right_eq_some.mp hs
    rw [← Option.some.inj heq]
    exact h.submit (isIdle_iff.mp hidle)
  | start timeout =>
    obtain ⟨hidle, heq⟩ := Option.ite_none_right_eq_some.mp hs
    rw [← Option.some.inj heq]
    exact h.loop (isIdle_iff.mp hidle)
  | resume timeout =>
    obtain ⟨⟨hidle, ht⟩, heq⟩ := Option.ite_none_right_eq_some.mp hs
    rw [if_neg (h.unfinishedTasks_pos ht)] at heq
    rw [← Option.some.inj heq]
    exact (h.taskDone ht).loop (isIdle_iff.mp hidle)
  | advance => exact h.advance hs
  | callback number => exact h.callback hs
  | release => exact h.release hs

theorem inv_init {slots : Option ℕ} (h : ∀ n, slots = some n → n = d.simultaneous) :
    Inv d ({ slots } : Lane κ α ρ δ ω) where
  semaphore n hn := h n hn
  count := rfl
  limit := Nat.zero_le _
  round := .idle (.inl rfl)
  tasks := le_rfl
  frame _ hr := absurd hr List.not_mem_nil
  cell _ hr := absurd hr List.not_mem_nil
  completed _ hc := absurd hc List.not_mem_nil
  reported _ hp := absurd hp List.not_mem_nil
  numbers := .refl _
  order := rfl
  faults := rfl

/-- Nothing is lost or told twice, and no more is asked of librbd than allowed. -/
structure Accounted (simultaneous : ℕ) (l : Lane κ α ρ δ ω) : Prop where
  issuedOnce : l.issued ++ l.pc.item ++ l.queue = l.submitted
  reportedOnce : l.numbers.Perm (List.range l.issued.length)
  finished : l.isIdle → l.finished → l.issued = l.submitted ∧
    (l.reported.map fun p => p.1.number).Perm (List.range l.submitted.length)
  limit : l.outstanding ≤ simultaneous ∧ l.requests.length + l.completed.length ≤ simultaneous
  faults : l.faults = 0

theorem Inv.finished (h : l.Inv d) (hidle : l.isIdle) (hfin : l.finished) :
    l.issued = l.submitted ∧
      (l.reported.map fun p => p.1.number).Perm (List.range l.submitted.length) := by
  have hpc := isIdle_iff.mp hidle
  obtain ⟨hqueue, hout⟩ := hfin
  have hcount := h.count
  have horder := h.order
  have hnumbers := h.numbers
  rw [hpc, hout] at hcount
  have hzero : l.requests.length + l.completed.length = 0 := hcount
  have hrequests : l.requests = [] := List.eq_nil_of_length_eq_zero (by omega)
  have hcompleted : l.completed = [] := List.eq_nil_of_length_eq_zero (by omega)
  have hissued : l.issued = l.submitted := by
    rw [hpc, hqueue, List.append_nil] at horder
    exact (List.append_nil _).symm.trans horder
  refine ⟨hissued, ?_⟩
  rw [Lane.numbers, hrequests, hcompleted, hissued] at hnumbers
  exact hnumbers

theorem Inv.accounted (h : l.Inv d) : l.Accounted d.simultaneous where
  issuedOnce := h.order
  reportedOnce := h.numbers
  finished := h.finished
  limit := by
    have hle : l.pc.uncounted ≤ l.pc.reserved := by
      cases l.pc with
      | issuing => exact Nat.zero_le _
      | _ => exact le_rfl
    have hcount := h.count
    have hlimit := h.limit
    constructor <;> omega
  faults := h.faults

end Lane

variable {c : Settings} {io : Io κ}

theorem Io.inv_of_reaches (h : Reaches (Io.step c) (Io.init c) io) :
    io.reads.Inv c.reads ∧ io.writes.Inv c.writes := by
  refine h.invariant (I := fun io => io.reads.Inv c.reads ∧ io.writes.Inv c.writes) ?_ ?_
  · refine ⟨Lane.inv_init fun n hn => ?_, Lane.inv_init fun n hn => ?_⟩
    · cases hn
    · cases hn
      rfl
  · intro s e t hs _ hstep
    cases e with
    | read e =>
      obtain ⟨-, hmap⟩ := Option.ite_none_right_eq_some.mp hstep
      obtain ⟨reads, hreads, heq⟩ := Option.map_eq_some_iff.mp hmap
      rw [← heq]
      exact ⟨hs.1.step hreads, hs.2⟩
    | write e =>
      obtain ⟨-, hmap⟩ := Option.ite_none_right_eq_some.mp hstep
      obtain ⟨writes, hwrites, heq⟩ := Option.map_eq_some_iff.mp hmap
      rw [← heq]
      exact ⟨hs.1, hs.2.step hwrites⟩

/-- What is told about a block that was read: its data, what was raised, or the `IOError`. -/
inductive ReadTold (block : Block κ) (answer : Answer (Option Bytes)) :
    Outcome (Block κ × Bytes) → Prop
  | data {data : Bytes} : answer.raised = none → answer.returnValue = block.size →
      answer.data = some data → data ≠ [] → ReadTold block answer (.result (block, data))
  | exception {e : String} : answer.raised = some e → ReadTold block answer (.exception e)
  | failed : answer.raised = none → answer.returnValue < 0 →
      ReadTold block answer (.ioError s!"Read of block {block.idx} failed.")
  | short : answer.raised = none → 0 ≤ answer.returnValue → answer.returnValue ≠ block.size →
      ReadTold block answer (.ioError
        (s!"Short read of block {block.idx}. Wanted {block.size} bytes but got " ++
          s!"{answer.returnValue}."))
  | noData : answer.raised = none → answer.returnValue = block.size →
      answer.data = none ∨ answer.data = some [] →
      ReadTold block answer (.ioError s!"Read of block {block.idx} failed.")

inductive WriteTold (block : Block κ) (answer : Answer Unit) : Outcome (Block κ) → Prop
  | written : answer.raised = none → answer.returnValue = 0 →
      WriteTold block answer (.result block)
  | exception {e : String} : answer.raised = some e → WriteTold block answer (.exception e)
  | failed : answer.raised = none → answer.returnValue ≠ 0 →
      WriteTold block answer (.ioError s!"Write of block {block.idx} failed.")

theorem readTold_outcome (r : Completion κ (Option Bytes)) :
    ReadTold r.block r.answer (readOutcome r) := by
  obtain ⟨number, block, raised, returnValue, data⟩ := r
  unfold readOutcome
  cases raised with
  | some e => exact .exception rfl
  | none =>
    dsimp only
    by_cases hneg : returnValue < 0
    · rw [if_pos hneg]
      exact .failed rfl hneg
    rw [if_neg hneg]
    by_cases hshort : returnValue ≠ block.size
    · rw [if_pos hshort]
      refine .short ?_ ?_ ?_
      · rfl
      · exact not_lt.mp hneg
      · exact hshort
    rw [if_neg hshort]
    have hsize : returnValue = block.size := not_not.mp hshort
    cases data with
    | none => exact .noData rfl hsize (.inl rfl)
    | some data =>
      cases data with
      | nil => exact .noData rfl hsize (.inr rfl)
      | cons x data => exact .data rfl hsize rfl (List.cons_ne_nil x data)

theorem writeTold_outcome (r : Completion κ Unit) :
    WriteTold r.block r.answer (writeOutcome r) := by
  obtain ⟨number, block, raised, returnValue, data⟩ := r
  unfold writeOutcome
  cases raised with
  | some e => exact .exception rfl
  | none =>
    dsimp only
    by_cases hfailed : returnValue ≠ 0
    · rw [if_pos hfailed]
      exact .failed rfl hfailed
    · rw [if_neg hfailed]
      exact .written rfl (not_not.mp hfailed)

/-- The request for the bytes of a block. -/
def ReadArguments.of (c : Settings) (block : Block κ) : ReadArguments :=
  ⟨block.idx * c.blockSize, block.size⟩

def WriteArguments.of (c : Settings) (item : Block κ × Bytes) : WriteArguments :=
  ⟨item.2, item.1.idx * c.blockSize⟩

/-- Every request is for the block that was queued, and its completion and what is told about it
are those of this block. -/
structure Io.Paired (c : Settings) (io : Io κ) : Prop where
  reads : ∀ r ∈ io.reads.requests, ∃ block, io.reads.issued[r.number]? = some block ∧
    r.arguments = .of c block
  readsCompleted : ∀ r ∈ io.reads.completed, io.reads.issued[r.number]? = some r.block ∧
    r.answer = c.readAnswer r.number (.of c r.block)
  readsTold : ∀ p ∈ io.reads.reported, ∃ block, io.reads.issued[p.1.number]? = some block ∧
    ReadTold block (c.readAnswer p.1.number (.of c block)) p.2
  writes : ∀ r ∈ io.writes.requests, ∃ item, io.writes.issued[r.number]? = some item ∧
    r.arguments = .of c item
  writesCompleted : ∀ r ∈ io.writes.completed, ∃ data,
    io.writes.issued[r.number]? = some (r.block, data) ∧
      r.answer = c.writeAnswer r.number (.of c (r.block, data))
  writesTold : ∀ p ∈ io.writes.reported, ∃ block data,
    io.writes.issued[p.1.number]? = some (block, data) ∧
      WriteTold block (c.writeAnswer p.1.number (.of c (block, data))) p.2

theorem Io.paired_of_inv (hreads : io.reads.Inv c.reads) (hwrites : io.writes.Inv c.writes) :
    io.Paired c where
  reads r hr := by
    obtain ⟨block, hblock, -, harguments⟩ := hreads.cell r hr
    exact ⟨block, hblock, harguments⟩
  readsCompleted r hr := by
    obtain ⟨block, hissued, hblock, hanswer⟩ := hreads.completed r hr
    obtain rfl : r.block = block := hblock
    exact ⟨hissued, hanswer⟩
  readsTold p hp := by
    obtain ⟨⟨block, hissued, hblock, hanswer⟩, houtcome⟩ := hreads.reported p hp
    obtain rfl : p.1.block = block := hblock
    have htold := readTold_outcome p.1
    rw [hanswer] at htold
    exact ⟨p.1.block, hissued, houtcome ▸ htold⟩
  writes r hr := by
    obtain ⟨item, hitem, -, harguments⟩ := hwrites.cell r hr
    exact ⟨item, hitem, harguments⟩
  writesCompleted r hr := by
    obtain ⟨⟨block, data⟩, hissued, hblock, hanswer⟩ := hwrites.completed r hr
    obtain rfl : r.block = block := hblock
    exact ⟨data, hissued, hanswer⟩
  writesTold p hp := by
    obtain ⟨⟨⟨block, data⟩, hissued, hblock, hanswer⟩, houtcome⟩ := hwrites.reported p hp
    obtain rfl : p.1.block = block := hblock
    have htold := writeTold_outcome p.1
    rw [hanswer] at htold
    exact ⟨p.1.block, data, hissued, houtcome ▸ htold⟩

/-- Whatever the settings and the answers of librbd are, and whichever order calls, callbacks
and iterations come in. -/
theorem Io.pairs_completions (h : Reaches (Io.step c) (Io.init c) io) :
    io.Paired c ∧ io.reads.Accounted c.simultaneousReads ∧
      io.writes.Accounted c.simultaneousWrites := by
  obtain ⟨hreads, hwrites⟩ := Io.inv_of_reaches h
  exact ⟨Io.paired_of_inv hreads hwrites, hreads.accounted, hwrites.accounted⟩

/-- Two reads of which the second waits for an iteration, which times out once. -/
def twoReads : List (Io.Event Unit) :=
  let block (idx : ℕ) : Block Unit := ⟨1, idx, none, none, 2, true⟩
  ([.submit (block 0), .advance, .advance, .advance, .advance, .submit (block 1), .advance,
    .start (some 0), .advance, .advance, .callback 0, .start none, .advance, .advance,
    .resume none, .advance, .advance, .advance, .advance, .callback 1, .advance,
    .resume none] : List (Event (Block Unit))).map .read

def twoReadsSettings : Settings where
  blockSize := 2
  simultaneousReads := 1
  simultaneousWrites := 1
  readAnswer n a := ⟨none, a.length, some [UInt8.ofNat n, UInt8.ofNat a.offset]⟩
  writeAnswer _ _ := ⟨none, 0, ()⟩

def Outcome.read? : Outcome (Block κ × Bytes) → Option (ℕ × Bytes)
  | result w => some (w.1.idx, w.2)
  | _ => none

theorem Io.pairs_completions_example : ∃ io : Io Unit,
    (io.reads.reported.map fun p => p.2.read?) = [some (0, [0, 0]), some (1, [1, 2])] ∧
      io.reads.finished ∧ io.Paired twoReadsSettings ∧ io.reads.Accounted 1 ∧
      io.writes.Accounted 1 := by
  have hrun : (run (Io.step twoReadsSettings) (Io.init twoReadsSettings) twoReads).any
      (fun io : Io Unit => decide
        ((io.reads.reported.map fun p => p.2.read?) = [some (0, [0, 0]), some (1, [1, 2])] ∧
          io.reads.finished)) = true := by
    decide +kernel
  obtain ⟨io, hreaches, hio⟩ := exists_reaches_of_run hrun
  have hio := of_decide_eq_true hio
  exact ⟨io, hio.1, hio.2, Io.pairs_completions hreaches⟩

end Benji.Rbdaio
