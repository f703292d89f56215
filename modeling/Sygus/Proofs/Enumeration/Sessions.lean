import Sygus.Enumerator.Session
import Sygus.Proofs.Enumeration.Interruptions

/-!
# What the enumerators of a session hand out

The steps of a session come one after the other, but somebody may raise a flag while a call is under
way. Whatever has happened, what concerns one slot is a story of its enumerator: it has been called
under some bound or other, and with its flag up or down. So the books of that enumerator tell what
has become of each derivation, and what concerns other slots only is not in them.
-/

namespace Sygus.Enumerator.Session

open Relation (ReflTransGen)

/-- Something that happens in a session. -/
inductive Happening where
  | step (st : Step) (reply : Reply)
  /-- A slot is called, and its flag goes up before the call has returned. -/
  | raced (slot : Nat) (answer : Except Fault (Option Program))

/-- What happens to a session. -/
inductive Happens (g : Grammar) (s : Session) : Happening → Session → Prop where
  | step {fuel : Nat} {st : Step} {reply : Reply} {s' : Session} :
      s.step g fuel st = some (reply, s') → Happens g s (.step st reply) s'
  | raced {number fuel : Nat} {slot : Slot} {stop : Stop} {pull : Pull} :
      s.slots[number]? = some slot → s.isRaised slot.flag = false →
      slot.enumerator.next g stop fuel .empty = some pull →
      Happens g s (.raced number pull.result)
        { s with
          slots := s.slots.set number { slot with enumerator := pull.rest }
          raised := slot.flag :: s.raised }

/-- What has happened in a session, and in which state. -/
abbrev Past := List (Session × Happening)

/-- A session and its past. -/
inductive Played (g : Grammar) : Past → Session → Prop where
  | start : Played g [] {}
  | next {past : Past} {s s' : Session} {what : Happening} :
      Played g past s → Happens g s what s' → Played g (past ++ [(s, what)]) s'

/-- The symbol that a new slot starts from. -/
def start? : Session × Happening → Option Symbol
  | (_, .step (.create start) _) => some start
  | _ => none

/-- The symbols that the slots of a session have started from. -/
def Past.starts (past : Past) : List Symbol := past.filterMap start?

/-- The calls to a slot among what has happened. -/
def callsOf (number : Nat) : Session × Happening → List Call
  | (s, .step (.next n _) (.pulled answers)) =>
    match s.slots[n]? with
    | some slot =>
      if n = number then
        answers.map fun answer => ⟨slot.enumerator.bound, s.isRaised slot.flag, answer⟩
      else []
    | none => []
  | (s, .raced n answer) =>
    match s.slots[n]? with
    | some slot => if n = number then [⟨slot.enumerator.bound, true, answer⟩] else []
    | none => []
  | _ => []

/-- All calls to a slot of a session. -/
def Past.calls (past : Past) (number : Nat) : List Call := past.flatMap (callsOf number)

variable {g : Grammar} {past : Past} {s s' : Session} {what : Happening} {number : Nat} {slot : Slot}

@[simp] theorem Past.starts_concat (past : Past) (s : Session) (what : Happening) :
    Past.starts (past ++ [(s, what)]) = past.starts ++ (start? (s, what)).toList := by
  unfold Past.starts
  cases h : start? (s, what) <;> simp [h]

@[simp] theorem Past.calls_concat (past : Past) (s : Session) (what : Happening) (number : Nat) :
    Past.calls (past ++ [(s, what)]) number = past.calls number ++ callsOf number (s, what) := by
  simp [Past.calls]

/-- What something that happens does to the slots and to the flags of a session. -/
inductive Effect (g : Grammar) (s : Session) : Happening → Session → Prop where
  | nothing {st : Step} {reply : Reply} {s' : Session} :
      start? (s, .step st reply) = none → (∀ n, callsOf n (s, .step st reply) = []) →
      s'.slots = s.slots → s'.raised = s.raised → Effect g s (.step st reply) s'
  /-- The flag of a token goes up. -/
  | cancelled {token flag : Nat} {reply : Reply} {s' : Session} :
      s.tokens[token]? = some flag → s'.slots = s.slots → s'.raised = flag :: s.raised →
      Effect g s (.step (.cancel token) reply) s'
  | created {start : Symbol} {reply : Reply} {s' : Session} :
      s'.slots = s.slots ++ [⟨ofSymbol start, s.flags⟩] → s'.raised = s.raised →
      Effect g s (.step (.create start) reply) s'
  | bounded {number : Nat} {bound : Option Nat} {reply : Reply} {s' : Session} :
      s'.slots = s.slots.modify number (fun slot =>
        { slot with enumerator := slot.enumerator.withBound bound }) → s'.raised = s.raised →
      Effect g s (.step (.setBound number bound) reply) s'
  /-- The flag of another token takes the place of the flag. -/
  | reflagged {number token flag : Nat} {reply : Reply} {s' : Session} :
      s'.slots = s.slots.modify number (fun slot => { slot with flag }) → s'.raised = s.raised →
      Effect g s (.step (.setToken number token) reply) s'
  | called {number count fuel : Nat} {slot : Slot} {answers : List (Except Fault (Option Program))}
      {e : Enumerator} {s' : Session} : s.slots[number]? = some slot →
      slot.enumerator.pull g (if s.isRaised slot.flag = true then .atPoll 0 else .never) fuel count
        = some (answers, e) →
      s'.slots = s.slots.set number { slot with enumerator := e } → s'.raised = s.raised →
      Effect g s (.step (.next number count) (.pulled answers)) s'
  | raced {number fuel : Nat} {slot : Slot} {stop : Stop} {pull : Pull} {s' : Session} :
      s.slots[number]? = some slot → slot.enumerator.next g stop fuel .empty = some pull →
      s'.slots = s.slots.set number { slot with enumerator := pull.rest } →
      s'.raised = slot.flag :: s.raised → Effect g s (.raced number pull.result) s'

/-- **What may happen to a session.** -/
theorem Happens.effect (h : Happens g s what s') : Effect g s what s' := by
  cases h with
  | raced hslot _ hnext => exact .raced hslot hnext rfl rfl
  | @step fuel st reply s' hstep =>
      cases st with
      | createToken =>
          cases hstep
          exact .nothing rfl (fun _ => rfl) rfl rfl
      | copyToken token =>
          simp only [Session.step] at hstep
          split at hstep <;> cases hstep <;> exact .nothing rfl (fun _ => rfl) rfl rfl
      | cancel token =>
          simp only [Session.step] at hstep
          split at hstep
          · cases hstep
            exact .nothing rfl (fun _ => rfl) rfl rfl
          · rename_i flag htoken
            cases hstep
            exact .cancelled htoken rfl rfl
      | create start =>
          cases hstep
          exact .created rfl rfl
      | setBound number bound =>
          cases hstep
          exact .bounded rfl rfl
      | setToken number token =>
          simp only [Session.step] at hstep
          split at hstep
          · cases hstep
            exact .nothing rfl (fun _ => rfl) rfl rfl
          · cases hstep
            exact .reflagged rfl rfl
      | next number count =>
          simp only [Session.step] at hstep
          split at hstep
          · cases hstep
            exact .nothing rfl (fun _ => rfl) rfl rfl
          · rename_i slot hslot
            rw [Option.bind_eq_bind, Option.bind_eq_some_iff] at hstep
            obtain ⟨⟨answers, e⟩, hpull, hstep⟩ := hstep
            cases hstep
            exact .called hslot hpull rfl rfl

/-- Up to so many calls one after the other. -/
theorem story_of_pull {start : Symbol} {calls : List Call} {stop : Stop} {fuel count : Nat} {up : Bool}
    {e e' : Enumerator} {answers : List (Except Fault (Option Program))}
    (h : Story g start calls e) (hpull : e.pull g stop fuel count = some (answers, e'))
    (hup : ∀ j, stop.isRaised j = true → up = true) :
    Story g start (calls ++ answers.map fun answer => ⟨e.bound, up, answer⟩) e' := by
  induction count generalizing calls e answers with
  | zero =>
      cases hpull
      simpa using h
  | succ count ih =>
      rw [pull, Option.bind_eq_bind, Option.bind_eq_some_iff] at hpull
      obtain ⟨⟨result, rest, j⟩, hnext, hpull⟩ := hpull
      have hcall := h.call hnext hup
      have hbound : rest.bound = e.bound := bound_of_next hnext
      -- only after a program is there another call
      rcases result with fault | _ | p
      · cases hpull
        exact hcall
      · cases hpull
        exact hcall
      · dsimp only at hpull
        rw [Option.bind_eq_bind, Option.bind_eq_some_iff] at hpull
        obtain ⟨⟨more, e₁⟩, hmore, hpull⟩ := hpull
        cases hpull
        have hrest := ih hcall hmore
        rw [hbound, List.append_assoc] at hrest
        exact hrest

/-- The slots and the past of a session tell the same stories. -/
structure Told (g : Grammar) (past : Past) (s : Session) : Prop where
  length_starts : past.starts.length = s.slots.length
  /-- What is no slot yet has not been called. -/
  silent : ∀ number, s.slots[number]? = none → past.calls number = []
  stories : ∀ number slot start, s.slots[number]? = some slot → past.starts[number]? = some start →
    Story g start (past.calls number) slot.enumerator

namespace Told

/-- Nothing has happened yet. -/
theorem start : Told g [] {} where
  length_starts := rfl
  silent _ _ := rfl
  stories _ _ _ hslot := by simp at hslot

/-- What happens to the slots that there are goes on with their stories. -/
theorem of_slots (h : Told g past s) (hstart : start? (s, what) = none)
    (hlength : s'.slots.length = s.slots.length)
    (hsilent : ∀ number, s.slots[number]? = none → callsOf number (s, what) = [])
    (hslots : ∀ number slot', s'.slots[number]? = some slot' → ∃ slot, s.slots[number]? = some slot
      ∧ ∀ start calls, Story g start calls slot.enumerator →
        Story g start (calls ++ callsOf number (s, what)) slot'.enumerator) :
    Told g (past ++ [(s, what)]) s' where
  length_starts := by
    rw [Past.starts_concat, hstart, hlength]
    simpa using h.length_starts
  silent number hnone := by
    rw [List.getElem?_eq_none_iff, hlength, ← List.getElem?_eq_none_iff] at hnone
    rw [Past.calls_concat, h.silent number hnone, hsilent number hnone]
    rfl
  stories number slot' start hslot' hstarts := by
    obtain ⟨slot, hslot, hstory⟩ := hslots number slot' hslot'
    rw [Past.starts_concat, hstart, Option.toList_none, List.append_nil] at hstarts
    rw [Past.calls_concat]
    exact hstory start _ (h.stories number slot start hslot hstarts)

/-- What leaves the slots alone adds nothing. -/
theorem quiet (h : Told g past s) (hstart : start? (s, what) = none)
    (hslots : s'.slots = s.slots) (hcalls : ∀ number, callsOf number (s, what) = []) :
    Told g (past ++ [(s, what)]) s' := by
  refine h.of_slots hstart (by rw [hslots]) (fun number _ => hcalls number) ?_
  intro number slot' hslot'
  refine ⟨slot', hslots ▸ hslot', fun start calls hstory => ?_⟩
  rw [hcalls, List.append_nil]
  exact hstory

/-- Where a slot has been called, these calls are added to its story. -/
theorem called (h : Told g past s) (hslot : s.slots[number]? = some slot)
    (hstart : start? (s, what) = none) {e : Enumerator} {calls : List Call}
    (hslots : s'.slots = s.slots.set number { slot with enumerator := e })
    (hcalls : ∀ n, callsOf n (s, what) = if number = n then calls else [])
    (hstory : ∀ start sofar, Story g start sofar slot.enumerator → Story g start (sofar ++ calls) e) :
    Told g (past ++ [(s, what)]) s' := by
  have hlt := (List.getElem?_eq_some_iff.mp hslot).1
  refine h.of_slots hstart (by rw [hslots, List.length_set]) ?_ ?_
  · intro n hnone
    rw [hcalls, if_neg]
    rintro rfl
    rw [hslot] at hnone
    cases hnone
  · intro n slot' hslot'
    rw [hslots, List.getElem?_set] at hslot'
    rw [hcalls]
    by_cases heq : number = n
    · subst heq
      rw [if_pos rfl, if_pos hlt] at hslot'
      cases hslot'
      exact ⟨slot, hslot, fun start sofar hsofar => by rw [if_pos rfl]; exact hstory start sofar hsofar⟩
    · rw [if_neg heq] at hslot'
      refine ⟨slot', hslot', fun start sofar hsofar => ?_⟩
      rw [if_neg heq, List.append_nil]
      exact hsofar

/-- Where a slot has been changed but not called, its story goes on without a call. -/
theorem changed (h : Told g past s) {change : Slot → Slot} (hstart : start? (s, what) = none)
    (hslots : s'.slots = s.slots.modify number change) (hcalls : ∀ n, callsOf n (s, what) = [])
    (hstory : ∀ start sofar slot, Story g start sofar slot.enumerator →
      Story g start sofar (change slot).enumerator) : Told g (past ++ [(s, what)]) s' := by
  refine h.of_slots hstart (by rw [hslots, List.length_modify]) (fun n _ => hcalls n) ?_
  intro n slot' hslot'
  rw [hslots, List.getElem?_modify] at hslot'
  obtain ⟨slot, hslot, hchange⟩ := Option.map_eq_some_iff.mp hslot'
  refine ⟨slot, hslot, fun start sofar hsofar => ?_⟩
  rw [hcalls, List.append_nil, ← hchange]
  split
  · exact hstory start sofar slot hsofar
  · exact hsofar

/-- A new slot has a fresh enumerator, and no calls so far. -/
theorem created (h : Told g past s) (start : Symbol) {reply : Reply}
    (hslots : s'.slots = s.slots ++ [⟨ofSymbol start, s.flags⟩]) :
    Told g (past ++ [(s, .step (.create start) reply)]) s' where
  length_starts := by
    rw [Past.starts_concat, hslots]
    simp [start?, h.length_starts]
  silent n hnone := by
    rw [hslots, List.getElem?_eq_none_iff, List.length_append] at hnone
    rw [Past.calls_concat, h.silent n (List.getElem?_eq_none (by omega))]
    rfl
  stories n slot start' hslot hstart' := by
    have hstarts : Past.starts (past ++ [(s, .step (.create start) reply)]) = past.starts ++ [start] :=
      Past.starts_concat _ _ _
    have hnone : callsOf n (s, .step (.create start) reply) = [] := rfl
    rw [hslots] at hslot
    rw [hstarts] at hstart'
    rw [Past.calls_concat, hnone, List.append_nil]
    rcases Nat.lt_trichotomy n s.slots.length with hlt | rfl | hgt
    · rw [List.getElem?_append_left hlt] at hslot
      rw [List.getElem?_append_left (h.length_starts ▸ hlt)] at hstart'
      exact h.stories n slot start' hslot hstart'
    · rw [List.getElem?_concat_length] at hslot
      rw [← h.length_starts, List.getElem?_concat_length] at hstart'
      cases hslot
      cases hstart'
      rw [h.silent _ (List.getElem?_eq_none (le_refl _))]
      exact .fresh
    · rw [List.getElem?_eq_none (by simp; omega)] at hslot
      cases hslot

end Told

theorem callsOf_next (hslot : s.slots[number]? = some slot) (count n : Nat)
    (answers : List (Except Fault (Option Program))) :
    callsOf n (s, .step (.next number count) (.pulled answers))
      = if number = n then
          answers.map fun answer => ⟨slot.enumerator.bound, s.isRaised slot.flag, answer⟩
        else [] := by
  rw [callsOf, hslot]

theorem callsOf_raced (hslot : s.slots[number]? = some slot) (n : Nat)
    (answer : Except Fault (Option Program)) :
    callsOf n (s, .raced number answer)
      = if number = n then [⟨slot.enumerator.bound, true, answer⟩] else [] := by
  rw [callsOf, hslot]

/-- The flag that a call of a session may find up has been up before. -/
theorem up_of_stop {up : Bool} {j : Journal}
    (h : (if up = true then Stop.atPoll 0 else .never).isRaised j = true) : up = true := by
  cases up with
  | true => rfl
  | false => cases h

/-- **Whatever happens goes on with the stories.** -/
theorem Told.happens (h : Told g past s) (hwhat : Happens g s what s') :
    Told g (past ++ [(s, what)]) s' := by
  cases hwhat.effect with
  | nothing hstart hcalls hslots _ => exact h.quiet hstart hslots hcalls
  | cancelled _ hslots _ => exact h.quiet rfl hslots fun _ => rfl
  | created hslots _ => exact h.created _ hslots
  | bounded hslots _ =>
      exact h.changed rfl hslots (fun _ => rfl) fun start sofar slot hsofar => hsofar.setBound _
  -- the books do not say which flag it is that an enumerator looks at
  | reflagged hslots _ =>
      exact h.changed rfl hslots (fun _ => rfl) fun start sofar slot hsofar => hsofar
  | called hslot hpull hslots _ =>
      exact h.called hslot rfl hslots (fun n => callsOf_next hslot _ n _)
        fun start sofar hsofar => story_of_pull hsofar hpull fun _ => up_of_stop
  | raced hslot hnext hslots _ =>
      exact h.called hslot rfl hslots (fun n => callsOf_raced hslot n _)
        fun start sofar hsofar => hsofar.call hnext fun _ _ => rfl

/-- **In any session, slots and past tell the same stories.** -/
theorem Played.told (h : Played g past s) : Told g past s := by
  induction h with
  | start => exact .start
  | next _ hwhat ih => exact ih.happens hwhat

/-! ## What concerns a slot -/

/-- What happens concerns a slot if it is done to that slot, or raises its flag. -/
def Concerns (s : Session) (number : Nat) : Happening → Prop
  | .step (.setBound n _) _ | .step (.setToken n _) _ | .step (.next n _) _ => n = number
  | .step (.cancel token) _ => ∃ slot, s.slots[number]? = some slot ∧ s.tokens[token]? = some slot.flag
  | .raced n _ =>
    n = number ∨ ∃ slot other, s.slots[number]? = some slot ∧ s.slots[n]? = some other
      ∧ other.flag = slot.flag
  | .step .createToken _ | .step (.copyToken _) _ | .step (.create _) _ => False

/-- Something happens that does not concern the slot. -/
def Aside (g : Grammar) (number : Nat) (s s' : Session) : Prop :=
  ∃ what, Happens g s what s' ∧ ¬ s.Concerns number what

/-- The slot is as it has been, and its flag is up or down as it has been. -/
def Keeps (slot : Slot) (number : Nat) (s s' : Session) : Prop :=
  s'.slots[number]? = some slot ∧ s'.isRaised slot.flag = s.isRaised slot.flag

theorem isRaised_of_raised_eq (h : s'.raised = s.raised) (flag : Nat) :
    s'.isRaised flag = s.isRaised flag := by
  rw [isRaised, h, isRaised]

theorem isRaised_of_raised_cons {flag flag' : Nat} (h : s'.raised = flag' :: s.raised)
    (hne : flag ≠ flag') : s'.isRaised flag = s.isRaised flag := by
  simp [isRaised, h, hne]

/-- **What does not concern a slot leaves it and its flag alone.** -/
theorem Aside.keeps (h : Aside g number s s') (hslot : s.slots[number]? = some slot) :
    Keeps slot number s s' := by
  obtain ⟨what, hwhat, hconcerns⟩ := h
  cases hwhat.effect with
  | nothing _ _ hslots hraised =>
      exact ⟨hslots ▸ hslot, isRaised_of_raised_eq hraised slot.flag⟩
  | cancelled htoken hslots hraised =>
      refine ⟨hslots ▸ hslot, isRaised_of_raised_cons hraised fun heq => hconcerns ?_⟩
      exact ⟨slot, hslot, htoken.trans (congrArg some heq.symm)⟩
  | created hslots hraised =>
      refine ⟨?_, isRaised_of_raised_eq hraised slot.flag⟩
      rw [hslots, List.getElem?_append_left (List.getElem?_eq_some_iff.mp hslot).1, hslot]
  | bounded hslots hraised | reflagged hslots hraised =>
      refine ⟨?_, isRaised_of_raised_eq hraised slot.flag⟩
      rw [hslots, List.getElem?_modify_ne _ _ hconcerns, hslot]
  | called _ _ hslots hraised =>
      refine ⟨?_, isRaised_of_raised_eq hraised slot.flag⟩
      rw [hslots, List.getElem?_set_ne hconcerns, hslot]
  | @raced n fuel other stop pull _ hother _ hslots hraised =>
      rw [Concerns, not_or, not_exists] at hconcerns
      obtain ⟨hne, hflags⟩ := hconcerns
      refine ⟨?_, isRaised_of_raised_cons hraised fun heq => ?_⟩
      · rw [hslots, List.getElem?_set_ne hne, hslot]
      · exact hflags slot ⟨other, hslot, hother, heq.symm⟩

theorem keeps_of_asides (h : ReflTransGen (Aside g number) s s')
    (hslot : s.slots[number]? = some slot) : Keeps slot number s s' := by
  induction h with
  | refl => exact ⟨hslot, rfl⟩
  | tail _ haside ih =>
      have hkeeps := haside.keeps ih.1
      exact ⟨hkeeps.1, hkeeps.2.trans ih.2⟩

/-- What a call replies depends on the slot and its flag only. -/
theorem Keeps.reply_eq (h : Keeps slot number s s') (hslot : s.slots[number]? = some slot)
    (fuel count : Nat) :
    (s'.step g fuel (.next number count)).map (·.1) = (s.step g fuel (.next number count)).map (·.1) := by
  simp only [step, h.1, hslot, h.2]
  cases slot.enumerator.pull g (if s.isRaised slot.flag = true then .atPoll 0 else .never) fuel
    count <;> rfl

/--
**The books of a session account for every derivation, interrupted or not.**

Take any session over enumerators: they have been called, their bounds have been changed, their
tokens have been replaced and cancelled, also in the middle of a call. For every slot there are books
that tell what each call has taken out of the frontier, and by these books

* what has been handed out are the ends of derivations, and these derivations are a part, in the same
  order, of those that a fresh enumerator of the same symbol gets through if it has no bound and
  is not stopped;
* every derivation that ends has been handed out, or is cut off, by a place that was too deep for
  the bound in force when it was to be queued or that was lost to the flag, or it is still to come
  and later than all that have been handed out;
* a call that fails has handed out the fault of a derivation that leads to no program.

What does not concern the slot changes nothing about it, nor about the reply to its next calls.
-/
theorem books_cover_derivations (past : Past) (s : Session) (h : Played g past s) (number : Nat)
    (start : Symbol) (hstart : past.starts[number]? = some start) :
    ∃ slot t hauls ds, s.slots[number]? = some slot
      ∧ Books g start (past.calls number) slot.enumerator t hauls
      ∧ List.Forall₂ (Ends g start) ds ((past.calls number).flatMap Call.handed)
      ∧ (∃ ds' rs e, InitialSegment g start ds' ∧ List.Forall₂ (Ends g start) ds' rs
        ∧ Calls g (ofSymbol start) rs e ∧ ds.Sublist ds')
      ∧ (∀ d r, Ends g start d r →
        d ∈ ds ∨ t.CutsOff g d ∨ t.Awaits d ∧ ∀ d' ∈ ds, Earlier d' d)
      ∧ (∀ d' ∈ ds, ∀ fault, Ends g start d' (.error fault) →
        ∀ d p, Ends g start d (.ok (some p)) → ¬ d' <+: d)
      ∧ ∀ s', ReflTransGen (Aside g number) s s' →
        s'.slots[number]? = some slot ∧ s'.isRaised slot.flag = s.isRaised slot.flag
          ∧ ∀ fuel count, (s'.step g fuel (.next number count)).map (·.1)
            = (s.step g fuel (.next number count)).map (·.1) := by
  have htold := h.told
  have hlt : number < s.slots.length := by
    rw [← htold.length_starts]
    exact (List.getElem?_eq_some_iff.mp hstart).1
  have hslot : s.slots[number]? = some s.slots[number] := List.getElem?_eq_getElem hlt
  obtain ⟨t, hauls, hbooks⟩ := (htold.stories number _ start hslot hstart).exists_books
  refine ⟨_, t, hauls, _, hslot, hbooks, hbooks.forall₂_ends, hbooks.exists_reference,
    fun d r hd => hbooks.accounts hd, fun d' _ fault hd' d p hd => hd'.not_prefix_of_error hd, ?_⟩
  intro s' hasides
  have hkeeps := keeps_of_asides hasides hslot
  exact ⟨hkeeps.1, hkeeps.2, fun fuel count => hkeeps.reply_eq hslot fuel count⟩

/-- The first two expressions are asked for without a bound, the third one with a bound. Then the
token is cancelled for one call, which loses the literal `1`, and two calls with another token give
what comes behind it. -/
theorem books_cover_derivations_interrupted :
    ∃ past s, Played .arithmetic past s
      ∧ past.map (fun x => match x.2 with | .step st _ => some st | .raced _ _ => none)
        = [.create (.nonTerminal "E"), .next 0 2, .setBound 0 (some 1), .next 0 1, .createToken,
            .setToken 0 0, .cancel 0, .next 0 1, .createToken, .setToken 0 1, .next 0 2].map some
      ∧ past.starts[0]? = some (.nonTerminal "E")
      ∧ ∃ slot t hauls ds, s.slots[0]? = some slot
        ∧ Books .arithmetic (.nonTerminal "E") (past.calls 0) slot.enumerator t hauls
        ∧ List.Forall₂ (Ends .arithmetic (.nonTerminal "E")) ds
          ([.atom "x", .atom "y", .atom "z", .atom "2", .atom "3"].map fun u : Term =>
            .ok (Program.ofTerm? u))
        ∧ [6] ∉ ds ∧ t.CutsOff .arithmetic [6] := by
  have hplayed : Played .arithmetic _ _ := .next (.next (.next (.next (.next (.next (.next (.next
      (.next (.next (.next .start
    (.step (show step .arithmetic 20 _ (.create (.nonTerminal "E")) = _ from rfl)))
    (.step (show step .arithmetic 20 _ (.next 0 2) = _ from rfl)))
    (.step (show step .arithmetic 20 _ (.setBound 0 (some 1)) = _ from rfl)))
    (.step (show step .arithmetic 20 _ (.next 0 1) = _ from rfl)))
    (.step (show step .arithmetic 20 _ .createToken = _ from rfl)))
    (.step (show step .arithmetic 20 _ (.setToken 0 0) = _ from rfl)))
    (.step (show step .arithmetic 20 _ (.cancel 0) = _ from rfl)))
    (.step (show step .arithmetic 20 _ (.next 0 1) = _ from rfl)))
    (.step (show step .arithmetic 20 _ .createToken = _ from rfl)))
    (.step (show step .arithmetic 20 _ (.setToken 0 1) = _ from rfl)))
    (.step (show step .arithmetic 20 _ (.next 0 2) = _ from rfl))
  obtain ⟨slot, t, hauls, ds, hslot, hbooks, hends, _, haccounts, _⟩ :=
    books_cover_derivations _ _ hplayed 0 (.nonTerminal "E") rfl
  have hone : Ends .arithmetic (.nonTerminal "E") [6] (.ok (some ⟨.atom "1", rfl⟩)) := .complete rfl
  have hthree : (Term.leaf (.nonTerminal "E")).follow .arithmetic [8] = some (.atom "3") := rfl
  have hskipped : [6] ∉ ds := fun hmem =>
    absurd (mem_programs.mpr (mem_of_mem_ends hends hmem hone)) (by decide)
  -- the literal `3` has been handed out, and it comes later
  obtain ⟨d, hd, hends'⟩ := exists_ends_of_mem hends
    (mem_programs.mp (show (⟨.atom "3", rfl⟩ : Program) ∈ _ by decide))
  have hlater : ¬ Earlier d [6] := by
    cases hends' with
    | complete hroot =>
        rw [Term.follow_injective (by decide) (Term.isBare_leaf _) rfl hroot hthree]
        intro hearlier
        exact absurd ((List.shortlex_singleton_iff 8 6).mp hearlier) (by decide)
  refine ⟨_, _, hplayed, rfl, rfl, slot, t, hauls, ds, hslot, hbooks, hends, hskipped, ?_⟩
  rcases haccounts [6] _ hone with hmem | hcut | ⟨_, hwaiting⟩
  · exact absurd hmem hskipped
  · exact hcut
  · exact absurd (hwaiting d hd) hlater

end Sygus.Enumerator.Session
