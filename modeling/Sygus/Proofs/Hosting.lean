import Sygus.Host
import Sygus.Proofs.Attention

/-!
# Hosting a run, step by step

A host with a deadline is two parties and a clock. The **worker** searches, looking at the flag
again and again, and when it is done it sends word and ends. The **caller** waits for word or for the
deadline, whichever it notices first. If that is the deadline it raises the flag; in either case it
waits until the worker has ended, and returns what the worker has found.

All of this goes on at the same time. The search may be over before the flag goes up, or after that
but before the next look, and word may be on its way when the caller notices the deadline. Whatever
the order of the steps, the caller tells the truth about the run (`returned_answer_undisturbed`):
what the worker has found depends on nothing but its looks, and those have been honest.
-/

namespace Sygus.Host

open Relation (ReflTransGen)

variable {settings : Settings} {problem : Problem} {deadline deadline' : Option Nat} {r r' : Run}
  {looks more : List Bool}

/-! ## Looks -/

/-- What so many looks come to if the flag goes up before one of them. -/
def outlook (deadline : Option Nat) (count : Nat) : List Bool :=
  (List.range count).map fun i => deadline.any (· ≤ i)

@[simp] theorem length_outlook (deadline : Option Nat) (count : Nat) :
    (outlook deadline count).length = count := by
  simp [outlook]

theorem outlook_succ (deadline : Option Nat) (count : Nat) :
    outlook deadline (count + 1) = outlook deadline count ++ [deadline.any (· ≤ count)] := by
  simp [outlook, List.range_succ]

theorem take_outlook {count count' : Nat} (hle : count ≤ count') :
    (outlook deadline count').take count = outlook deadline count := by
  rw [outlook, ← List.map_take, List.take_range, Nat.min_eq_left hle, outlook]

/-- Once the flag is up it stays up. -/
theorem up_of_mem_outlook {count : Nat} (h : true ∈ outlook deadline count) :
    deadline.any (· ≤ count) = true := by
  obtain ⟨i, hi, hup⟩ := List.mem_map.mp h
  rw [List.mem_range] at hi
  cases deadline with
  | none => simp at hup
  | some d =>
      have hd : d ≤ i := by simpa using hup
      simp only [Option.any_some, decide_eq_true_eq]
      omega

theorem isRaised_stopAt (deadline : Option Nat) (j : Journal) :
    (stopAt deadline).isRaised j = deadline.any (· ≤ j.polls) := by
  cases deadline <;> rfl

theorem agrees_of_outlook_eq {count : Nat} (h : outlook deadline count = outlook deadline' count) :
    (stopAt deadline).Agrees (stopAt deadline') count := by
  intro j hj
  rw [isRaised_stopAt, isRaised_stopAt]
  exact List.map_inj_left.mp h j.polls (List.mem_range.mpr hj)

/-- If no look has found it up, the flag might as well stay down. -/
theorem agrees_never {count : Nat} (h : true ∉ outlook deadline count) :
    (stopAt deadline).Agrees .never count := by
  intro j hj
  rw [isRaised_stopAt]
  by_contra hup
  refine h (List.mem_map.mpr ⟨j.polls, List.mem_range.mpr hj, ?_⟩)
  simpa [Stop.isRaised] using hup

/-- A run whose looks come to this ends so. -/
def EndsAfter (settings : Settings) (problem : Problem) (looks : List Bool) (r : Run) : Prop :=
  ∃ deadline fuel, settings.run problem (stopAt deadline) fuel = some r
    ∧ looks = outlook deadline r.journal.polls

/-- **The looks tell when a run ends, and how.** -/
theorem EndsAfter.unique (h : EndsAfter settings problem looks r)
    (h' : EndsAfter settings problem (looks ++ more) r') : more = [] ∧ r = r' := by
  obtain ⟨deadline, fuel, hrun, hlooks⟩ := h
  obtain ⟨deadline', fuel', hrun', hlooks'⟩ := h'
  have hlength := congrArg List.length hlooks
  have hlength' := congrArg List.length hlooks'
  rw [length_outlook] at hlength
  rw [length_outlook, List.length_append] at hlength'
  have hsame : outlook deadline r.journal.polls = outlook deadline' r.journal.polls :=
    calc outlook deadline r.journal.polls = looks := hlooks.symm
      _ = (looks ++ more).take r.journal.polls := by rw [← hlength, List.take_left]
      _ = outlook deadline' r.journal.polls := by rw [hlooks', take_outlook (by omega)]
  obtain ⟨fuel₀, hfuel⟩ := settings.run_congr hrun (agrees_of_outlook_eq hsame)
  have hcomputed := settings.computedBy problem
  have heq : r = r' :=
    hcomputed.eq_of_yields (hcomputed.yields (hfuel fuel₀ (le_refl _))) (hcomputed.yields hrun')
  subst heq
  exact ⟨List.eq_nil_of_length_eq_zero (by omega), rfl⟩

/-- Before that, it has not ended. -/
theorem EndsAfter.not_before {count count' : Nat}
    (h : EndsAfter settings problem (outlook deadline count) r) (hlt : count' < count) (r' : Run) :
    ¬ EndsAfter settings problem (outlook deadline count') r' := by
  intro h'
  have hsplit : outlook deadline count' ++ (outlook deadline count).drop count'
      = outlook deadline count := by
    rw [← take_outlook (Nat.le_of_lt hlt), List.take_append_drop]
  rw [← hsplit] at h
  have hnil := congrArg List.length (h'.unique h).1
  rw [List.length_drop, length_outlook, List.length_nil] at hnil
  omega

/-! ## The parties -/

/-- Where the worker is, and what it has found. -/
inductive Worker where
  | searching
  | finished (r : Run)
  /-- It has sent word that it is done. -/
  | announced (r : Run)
  | ended (r : Run)

/-- The run that the worker has behind it. -/
def Worker.run? : Worker → Option Run
  | searching => none
  | finished r | announced r | ended r => some r

/-- Where the caller is. -/
inductive Caller where
  | waiting
  /-- It has noticed the deadline. -/
  | expired
  | joining (timedOut : Bool)
  | returned (timedOut : Bool) (answer : Except Fault Report)

/-- The two parties, and what there is between them. -/
structure Scene where
  worker : Worker := .searching
  /-- What the looks of the worker have come to. -/
  looks : List Bool := []
  flag : Bool := false
  /-- Whether the deadline has passed. -/
  overdue : Bool := false
  /-- Whether there is word for the caller. -/
  word : Bool := false
  caller : Caller := .waiting

/-- What a caller makes of a run. -/
def answer (timedOut : Bool) (r : Run) : Except Fault Report :=
  r.result.map (⟨·, timedOut, r.journal.events⟩)

theorem answer_eq_ok {timedOut : Bool} {report : Report} : answer timedOut r = .ok report ↔
    r.result = .ok report.program ∧ report.timedOut = timedOut
      ∧ report.events = r.journal.events := by
  obtain ⟨program, late, events⟩ := report
  rw [answer]
  cases r.result with
  | ok found => simp [Except.map, eq_comm]
  | error fault => simp [Except.map]

theorem answer_eq_error {timedOut : Bool} {fault : Fault} :
    answer timedOut r = .error fault ↔ r.result = .error fault := by
  rw [answer]
  cases r.result with
  | ok found => simp [Except.map]
  | error fault' => simp [Except.map]

/-- One step of somebody. A look may come just too early to find the flag up, but it does not find
it up before that, nor down again. -/
inductive Step (settings : Settings) (problem : Problem) (s : Scene) : Scene → Prop where
  | look {up : Bool} : s.worker = .searching → (∀ r, ¬ EndsAfter settings problem s.looks r) →
      (up = true → s.flag = true) → (true ∈ s.looks → up = true) →
      Step settings problem s { s with looks := s.looks ++ [up] }
  | finish {r : Run} : s.worker = .searching → EndsAfter settings problem s.looks r →
      Step settings problem s { s with worker := .finished r }
  | announce {r : Run} : s.worker = .finished r →
      Step settings problem s { s with worker := .announced r, word := true }
  | exit {r : Run} : s.worker = .announced r →
      Step settings problem s { s with worker := .ended r }
  /-- The clock. -/
  | deadline : s.overdue = false → Step settings problem s { s with overdue := true }
  | hear : s.caller = .waiting → s.word = true →
      Step settings problem s { s with word := false, caller := .joining false }
  | expire : s.caller = .waiting → s.overdue = true →
      Step settings problem s { s with caller := .expired }
  | cancel : s.caller = .expired →
      Step settings problem s { s with flag := true, caller := .joining true }
  | join {timedOut : Bool} {r : Run} : s.caller = .joining timedOut → s.worker = .ended r →
      Step settings problem s { s with caller := .returned timedOut (answer timedOut r) }

/-- The scenes that some order of the steps leads to. -/
def Reachable (settings : Settings) (problem : Problem) (s : Scene) : Prop :=
  ReflTransGen (Step settings problem) {} s

variable {s s' : Scene}

/-- Whether the caller has raised the flag. -/
def Caller.hasCancelled : Caller → Bool
  | waiting | expired => false
  | joining timedOut | returned timedOut _ => timedOut

/-- Whether the worker has sent word. -/
def Worker.hasAnnounced : Worker → Bool
  | searching | finished _ => false
  | announced _ | ended _ => true

/-- What holds at any time. -/
structure Honest (settings : Settings) (problem : Problem) (s : Scene) : Prop where
  /-- Nobody but the caller raises the flag. -/
  flag_eq : s.flag = s.caller.hasCancelled
  /-- A look that has found the flag up was right. -/
  looks : true ∈ s.looks → s.flag = true
  /-- What the worker has found is what its looks have led to. -/
  found : ∀ r, s.worker.run? = some r → EndsAfter settings problem s.looks r
  /-- While the caller waits, word is not lost. -/
  word : s.caller = .waiting → s.worker.hasAnnounced = true → s.word = true
  /-- The caller returns what a worker has found that has ended. -/
  returned : ∀ timedOut a, s.caller = .returned timedOut a →
    ∃ r, s.worker = .ended r ∧ a = answer timedOut r

theorem honest_start (settings : Settings) (problem : Problem) : Honest settings problem {} where
  flag_eq := rfl
  looks := by simp
  found := by simp [Worker.run?]
  word := by simp [Worker.hasAnnounced]
  returned := by simp

/-- Until the worker has ended, the caller does not return. -/
theorem Honest.not_returned (hs : Honest settings problem s) (h : ∀ r, s.worker ≠ .ended r)
    (timedOut : Bool) (a : Except Fault Report) : s.caller ≠ .returned timedOut a := by
  intro hcaller
  obtain ⟨r, hended, _⟩ := hs.returned timedOut a hcaller
  exact h r hended

/-- **Every step keeps the scene honest.** -/
theorem Step.honest (h : Step settings problem s s') (hs : Honest settings problem s) :
    Honest settings problem s' := by
  cases h with
  | look hworker _ hup _ =>
      exact {
        flag_eq := hs.flag_eq
        looks := fun hmem => by
          rcases List.mem_append.mp hmem with hmem | hmem
          · exact hs.looks hmem
          · exact hup (List.mem_singleton.mp hmem).symm
        found := fun r hr => by simp [hworker, Worker.run?] at hr
        word := hs.word
        returned := hs.returned }
  | finish hworker hends =>
      exact {
        flag_eq := hs.flag_eq
        looks := hs.looks
        found := fun r hr => Option.some.inj hr ▸ hends
        word := fun _ hsent => by simp [Worker.hasAnnounced] at hsent
        returned := fun timedOut a ha => absurd ha (hs.not_returned (by simp [hworker]) timedOut a) }
  | announce hworker =>
      exact {
        flag_eq := hs.flag_eq
        looks := hs.looks
        found := fun r hr => hs.found r (by rw [hworker]; exact hr)
        word := fun _ _ => rfl
        returned := fun timedOut a ha => absurd ha (hs.not_returned (by simp [hworker]) timedOut a) }
  | exit hworker =>
      exact {
        flag_eq := hs.flag_eq
        looks := hs.looks
        found := fun r hr => hs.found r (by rw [hworker]; exact hr)
        word := fun hcaller _ => hs.word hcaller (by rw [hworker]; rfl)
        returned := fun timedOut a ha => absurd ha (hs.not_returned (by simp [hworker]) timedOut a) }
  | deadline _ => exact ⟨hs.flag_eq, hs.looks, hs.found, hs.word, hs.returned⟩
  | hear hcaller _ =>
      have hdown : s.flag = false := by rw [hs.flag_eq, hcaller]; rfl
      exact ⟨hdown, hs.looks, hs.found, nofun, nofun⟩
  | expire hcaller _ =>
      have hdown : s.flag = false := by rw [hs.flag_eq, hcaller]; rfl
      exact ⟨hdown, hs.looks, hs.found, nofun, nofun⟩
  | cancel _ => exact ⟨rfl, fun _ => rfl, hs.found, nofun, nofun⟩
  | @join timedOut r hcaller hworker =>
      have hflag : s.flag = timedOut := by rw [hs.flag_eq, hcaller]; rfl
      refine ⟨hflag, hs.looks, hs.found, nofun, fun timedOut' a ha => ⟨r, hworker, ?_⟩⟩
      injection ha with htimedOut ha
      rw [← htimedOut, ← ha]

/-- **Every scene that can be reached is honest.** -/
theorem Reachable.honest (h : Reachable settings problem s) : Honest settings problem s := by
  induction h with
  | refl => exact honest_start settings problem
  | tail _ hstep ih => exact hstep.honest ih

/-- **Nobody is stuck.** As long as the caller has not returned, somebody can make a step without the
help of the clock. -/
theorem Reachable.exists_step (h : Reachable settings problem s)
    (hnot : ∀ timedOut a, s.caller ≠ .returned timedOut a) :
    ∃ s', Step settings problem s s' ∧ s'.overdue = s.overdue := by
  have hs := h.honest
  cases hworker : s.worker with
  | searching =>
      by_cases hends : ∃ r, EndsAfter settings problem s.looks r
      · obtain ⟨r, hends⟩ := hends
        exact ⟨_, .finish hworker hends, rfl⟩
      · exact ⟨_, .look hworker (not_exists.mp hends) (id : s.flag = true → _) hs.looks, rfl⟩
  | finished r => exact ⟨_, .announce hworker, rfl⟩
  | announced r => exact ⟨_, .exit hworker, rfl⟩
  | ended r =>
      cases hcaller : s.caller with
      | waiting => exact ⟨_, .hear hcaller (hs.word hcaller (by rw [hworker]; rfl)), rfl⟩
      | expired => exact ⟨_, .cancel hcaller, rfl⟩
      | joining timedOut => exact ⟨_, .join hcaller hworker, rfl⟩
      | returned timedOut a => exact absurd hcaller (hnot timedOut a)

/-! ## Deadlines as numbers of looks

A run under a deadline that is a number of looks is one of these orders: the worker makes its looks
one after the other, and the caller raises the flag between two of them or not at all. -/

theorem run_eq_map (deadline : Option Nat) (fuel : Nat) :
    run settings problem deadline fuel = (settings.run problem (stopAt deadline) fuel).map fun r =>
      answer (deadline.any (· < r.journal.polls)) r := by
  rw [run]
  cases settings.run problem (stopAt deadline) fuel <;> rfl

/-- The looks that a run makes are made one by one. -/
theorem Reachable.looks_on {count count' polls : Nat} (h : Reachable settings problem s)
    (hsearching : s.worker = .searching) (hlooks : s.looks = outlook deadline count)
    (hends : EndsAfter settings problem (outlook deadline polls) r)
    (hflag : ∀ i < count', deadline.any (· ≤ i) = true → s.flag = true)
    (hle : count ≤ count') (hpolls : count' ≤ polls) :
    Reachable settings problem { s with looks := outlook deadline count' } := by
  induction count', hle using Nat.le_induction with
  | base => exact hlooks ▸ h
  | succ n hle ih =>
      have hsofar := ih (fun i hi => hflag i (by omega)) (by omega)
      rw [outlook_succ]
      exact hsofar.tail (.look hsearching (hends.not_before hpolls) (hflag n (Nat.lt_succ_self n))
        up_of_mem_outlook)

/-- If the worker is done in time, the caller hears from it. -/
theorem reachable_in_time {polls : Nat}
    (hends : EndsAfter settings problem (outlook deadline polls) r)
    (hdown : ∀ i < polls, ¬ deadline.any (· ≤ i) = true) :
    ∃ s, Reachable settings problem s ∧ s.caller = .returned false (answer false r) := by
  have hstart : Reachable settings problem {} := .refl
  have hlooked := hstart.looks_on rfl rfl hends (fun i hi hup => absurd hup (hdown i hi))
    (Nat.zero_le _) (le_refl _)
  exact ⟨_, hlooked.tail (.finish rfl hends) |>.tail (.announce rfl) |>.tail (.hear rfl rfl)
    |>.tail (.exit rfl) |>.tail (.join rfl rfl), rfl⟩

/-- If the deadline passes before the last look, the caller notices it there and then. -/
theorem reachable_too_late {polls limit : Nat}
    (hends : EndsAfter settings problem (outlook (some limit) polls) r) (hlimit : limit < polls) :
    ∃ s, Reachable settings problem s ∧ s.caller = .returned true (answer true r) := by
  have hstart : Reachable settings problem {} := .refl
  have hdown : ∀ i < limit, ¬ (some limit).any (· ≤ i) = true := by
    intro i hi hup
    have hle : limit ≤ i := by simpa using hup
    omega
  have hearly := hstart.looks_on rfl rfl hends (fun i hi hup => absurd hup (hdown i hi))
    (Nat.zero_le _) (Nat.le_of_lt hlimit)
  have hraised := hearly.tail (.deadline rfl) |>.tail (.expire rfl rfl) |>.tail (.cancel rfl)
  have hlooked := Reachable.looks_on hraised rfl rfl hends (fun _ _ _ => rfl)
    (Nat.le_of_lt hlimit) (le_refl _)
  exact ⟨_, hlooked.tail (.finish rfl hends) |>.tail (.announce rfl) |>.tail (.exit rfl)
    |>.tail (.join rfl rfl), rfl⟩

/-- **A run under a deadline is one order of the steps.** -/
theorem reachable_of_run {fuel : Nat} {a : Except Fault Report}
    (h : run settings problem deadline fuel = some a) :
    ∃ s timedOut, Reachable settings problem s ∧ s.caller = .returned timedOut a := by
  rw [run_eq_map, Option.map_eq_some_iff] at h
  obtain ⟨r, hrun, rfl⟩ := h
  have hends : EndsAfter settings problem (outlook deadline r.journal.polls) r :=
    ⟨deadline, fuel, hrun, rfl⟩
  cases hlate : deadline.any (· < r.journal.polls) with
  | false =>
      have hdown : ∀ i < r.journal.polls, ¬ deadline.any (· ≤ i) = true := by
        intro i hi hup
        cases deadline with
        | none => simp at hup
        | some limit =>
            simp only [Option.any_some, decide_eq_true_eq, decide_eq_false_iff_not] at hup hlate
            omega
      obtain ⟨s, hs, hcaller⟩ := reachable_in_time hends hdown
      exact ⟨s, false, hs, hcaller⟩
  | true =>
      cases deadline with
      | none => simp at hlate
      | some limit =>
          have hlimit : limit < r.journal.polls := by simpa using hlate
          obtain ⟨s, hs, hcaller⟩ := reachable_too_late hends hlimit
          exact ⟨s, true, hs, hcaller⟩

/-! ## The truth -/

/-- What the host says of a run that nobody disturbs. -/
def Undisturbed (settings : Settings) (problem : Problem) (a : Except Fault Report) : Prop :=
  ∃ fuel₀, ∀ fuel ≥ fuel₀, run settings problem none fuel = some a

theorem undisturbed_of_never
    (h : ∃ fuel₀, ∀ fuel ≥ fuel₀, settings.run problem .never fuel = some r) :
    Undisturbed settings problem (answer false r) := by
  obtain ⟨fuel₀, hfuel⟩ := h
  refine ⟨fuel₀, fun fuel hle => ?_⟩
  rw [run_eq_map, stopAt, hfuel fuel hle]
  rfl

/-- A worker that has not found the flag up has found what it finds undisturbed. -/
theorem EndsAfter.undisturbed (h : EndsAfter settings problem looks r) (hdown : true ∉ looks) :
    Undisturbed settings problem (answer false r) := by
  obtain ⟨deadline, fuel, hrun, hlooks⟩ := h
  exact undisturbed_of_never (settings.run_congr hrun (agrees_never (hlooks ▸ hdown)))

/-- Any worker has found nothing, or what it finds undisturbed. -/
theorem EndsAfter.none_or_undisturbed (h : EndsAfter settings problem looks r) :
    r.result = .ok none ∨ Undisturbed settings problem (answer false r) := by
  obtain ⟨deadline, fuel, hrun, _⟩ := h
  exact ((settings.stoppable problem).none_or_same (settings.computedBy problem) hrun).imp_right
    undisturbed_of_never

/--
**What is returned is the answer of the undisturbed run, or nothing in its place.**

When the caller returns, the worker has ended. If the caller has heard from the worker, it returns
the answer of the undisturbed run. If the deadline came first, it says so, and it returns no program
or the one of the undisturbed run. In either case it returns an error only if the undisturbed run
has that error.
-/
theorem returned_answer_undisturbed (h : Reachable settings problem s) {timedOut : Bool}
    {a : Except Fault Report} (hreturned : s.caller = .returned timedOut a) :
    (∃ r, s.worker = .ended r)
      ∧ (∀ report, a = .ok report → report.timedOut = timedOut)
      ∧ (timedOut = false → Undisturbed settings problem a)
      ∧ (timedOut = true → ∀ report, a = .ok report → report.program = none
        ∨ ∃ report₀, Undisturbed settings problem (.ok report₀)
          ∧ report.program = report₀.program)
      ∧ ∀ fault, a = .error fault → Undisturbed settings problem (.error fault) := by
  have hs := h.honest
  obtain ⟨r, hended, rfl⟩ := hs.returned timedOut a hreturned
  have hends := hs.found r (by rw [hended]; rfl)
  have hflag : s.flag = timedOut := by rw [hs.flag_eq, hreturned]; rfl
  refine ⟨⟨r, hended⟩, ?_, ?_, ?_, ?_⟩
  · intro report hreport
    exact (answer_eq_ok.mp hreport).2.1
  · rintro rfl
    -- the flag is down, so no look has found it up
    refine hends.undisturbed fun hmem => ?_
    rw [hs.looks hmem] at hflag
    cases hflag
  · rintro - report hreport
    have hresult := (answer_eq_ok.mp hreport).1
    rcases hends.none_or_undisturbed with hnone | hsame
    · rw [hnone] at hresult
      exact Or.inl (Except.ok.inj hresult).symm
    · have hanswer : answer false r = .ok ⟨report.program, false, r.journal.events⟩ :=
        answer_eq_ok.mpr ⟨hresult, rfl, rfl⟩
      rw [hanswer] at hsame
      exact Or.inr ⟨_, hsame, rfl⟩
  · intro fault hfault
    have hresult := answer_eq_error.mp hfault
    rcases hends.none_or_undisturbed with hnone | hsame
    · rw [hnone] at hresult
      cases hresult
    · exact answer_eq_error.mpr hresult ▸ hsame

/-- The problem that any program solves. -/
def unasked : Problem := ⟨.arithmetic, []⟩

/-- If the worker is done when the deadline passes, but the caller notices the deadline before it
hears from the worker, it says that time ran out, and returns the program all the same. -/
theorem returned_answer_undisturbed_too_late :
    ∃ s s', Reachable ⟨.topDown, false, none⟩ unasked s
      ∧ Reachable ⟨.topDown, false, none⟩ unasked s'
      ∧ (∃ report p, s.caller = .returned true (.ok report) ∧ report.program = some p
        ∧ (report.program = none ∨ ∃ report₀,
          Undisturbed ⟨.topDown, false, none⟩ unasked (.ok report₀)
            ∧ report.program = report₀.program))
      ∧ ∃ a, s'.caller = .returned false a
        ∧ Undisturbed ⟨.topDown, false, none⟩ unasked a := by
  obtain ⟨r, p, hrun, hresult⟩ : ∃ r p,
      (⟨.topDown, false, none⟩ : Settings).run unasked .never 10 = some r
        ∧ r.result = .ok (some p) := ⟨_, _, rfl, rfl⟩
  have hends : EndsAfter ⟨.topDown, false, none⟩ unasked (outlook none r.journal.polls) r :=
    ⟨none, 10, hrun, rfl⟩
  have hstart : Reachable ⟨.topDown, false, none⟩ unasked {} := .refl
  have hdone := (hstart.looks_on rfl rfl hends (by simp) (Nat.zero_le _) (le_refl _)).tail
    (.finish rfl hends)
  have hlate := hdone.tail (.deadline rfl) |>.tail (.expire rfl rfl) |>.tail (.announce rfl)
    |>.tail (.cancel rfl) |>.tail (.exit rfl) |>.tail (.join rfl rfl)
  have hheard := hdone.tail (.announce rfl) |>.tail (.hear rfl rfl) |>.tail (.deadline rfl)
    |>.tail (.exit rfl) |>.tail (.join rfl rfl)
  have hanswer : answer true r = .ok ⟨some p, true, r.journal.events⟩ :=
    answer_eq_ok.mpr ⟨hresult, rfl, rfl⟩
  refine ⟨_, _, hlate, hheard, ⟨_, p, by rw [hanswer], rfl, ?_⟩, _, rfl,
    (returned_answer_undisturbed hheard rfl).2.2.1 rfl⟩
  exact (returned_answer_undisturbed hlate rfl).2.2.2.1 rfl _ hanswer

end Sygus.Host
