import Sygus.Proofs.Cancellation
import Sygus.Strategy.Session

/-!
# What a session carries from run to run

Slots that have been copied from one another are a **family**: they share a flag and nothing else.
What a slot is worth at some moment of a session can therefore be told from the steps so far: its
settings from the changes made to that slot, and its flag from the steps that have stopped a slot of
its family. A run depends on nothing but these two.
-/

namespace Sygus.Strategy.Session

/-! ## Numbers with the same entry -/

/-- There are entries at both places of a list, and they are the same. -/
def Kin (xs : List Nat) (m n : Nat) : Prop := ∃ x, xs[m]? = some x ∧ xs[n]? = some x

section Kin

variable {xs ys : List Nat} {x y k m n : Nat}

theorem kin_iff (h : xs[k]? = some x) : Kin xs k n ↔ xs[n]? = some x := by
  unfold Kin
  rw [h]
  constructor
  · rintro ⟨_, hx, hn⟩
    cases hx
    exact hn
  · exact fun hn => ⟨x, rfl, hn⟩

theorem Kin.symm (h : Kin xs m n) : Kin xs n m := by
  obtain ⟨x, hm, hn⟩ := h
  exact ⟨x, hn, hm⟩

theorem get_concat_iff : (xs ++ [x])[n]? = some y ↔ xs[n]? = some y ∨ (n = xs.length ∧ x = y) := by
  rcases Nat.lt_trichotomy n xs.length with hlt | rfl | hgt
  · rw [List.getElem?_append_left hlt]
    simp [hlt.ne]
  · simp
  · rw [List.getElem?_eq_none (by simp; omega), List.getElem?_eq_none (by omega)]
    simp [hgt.ne']

/-- A new entry is at the new place and wherever it has been before. -/
theorem kin_concat_iff : Kin (xs ++ [x]) m n ↔ Kin xs m n ∨ (m = xs.length ∧ xs[n]? = some x)
    ∨ (xs[m]? = some x ∧ n = xs.length) ∨ (m = xs.length ∧ n = xs.length) := by
  unfold Kin
  simp only [get_concat_iff]
  constructor
  · rintro ⟨y, hm | ⟨hm, rfl⟩, hn | ⟨hn, hxy⟩⟩
    · exact Or.inl ⟨y, hm, hn⟩
    · exact Or.inr (Or.inr (Or.inl ⟨hxy ▸ hm, hn⟩))
    · exact Or.inr (Or.inl ⟨hm, hn⟩)
    · exact Or.inr (Or.inr (Or.inr ⟨hm, hn⟩))
  · rintro (⟨y, hm, hn⟩ | ⟨hm, hn⟩ | ⟨hm, hn⟩ | ⟨hm, hn⟩)
    · exact ⟨y, Or.inl hm, Or.inl hn⟩
    · exact ⟨x, Or.inr ⟨hm, rfl⟩, Or.inl hn⟩
    · exact ⟨x, Or.inl hm, Or.inr ⟨hn, rfl⟩⟩
    · exact ⟨x, Or.inr ⟨hm, rfl⟩, Or.inr ⟨hn, rfl⟩⟩

theorem kin_concat_of_lt (hm : m < xs.length) (hn : n < xs.length) :
    Kin (xs ++ [x]) m n ↔ Kin xs m n := by
  simp [kin_concat_iff, hm.ne, hn.ne]

theorem kin_concat_last (hm : m < xs.length) : Kin (xs ++ [x]) m xs.length ↔ xs[m]? = some x := by
  have hno : ¬ Kin xs m xs.length := by
    rintro ⟨_, _, hnone⟩
    rw [List.getElem?_eq_none (le_refl _)] at hnone
    cases hnone
  simp [kin_concat_iff, hm.ne, hno]

/-- The lists have equal entries at the same places. -/
structure Matching (xs ys : List Nat) : Prop where
  length_eq : xs.length = ys.length
  kin_iff : ∀ {m n}, Kin xs m n ↔ Kin ys m n

theorem Matching.fresh (h : Matching xs ys) (hx : x ∉ xs) (hy : y ∉ ys) :
    Matching (xs ++ [x]) (ys ++ [y]) where
  length_eq := by simp [h.length_eq]
  kin_iff := by
    intro m n
    have hx' : ∀ i, xs[i]? ≠ some x := fun i hi => hx (List.mem_of_getElem? hi)
    have hy' : ∀ i, ys[i]? ≠ some y := fun i hi => hy (List.mem_of_getElem? hi)
    simp only [kin_concat_iff, hx', hy', h.kin_iff, h.length_eq, false_and, and_false]

theorem Matching.copied (h : Matching xs ys) (hx : xs[k]? = some x) (hy : ys[k]? = some y) :
    Matching (xs ++ [x]) (ys ++ [y]) where
  length_eq := by simp [h.length_eq]
  kin_iff := by
    intro m n
    simp only [kin_concat_iff, ← Session.kin_iff hx, ← Session.kin_iff hy, h.kin_iff, h.length_eq]

end Kin

/-! ## What the steps so far say -/

/-- The settings of the slots after one more step. -/
def settle (settings : List Settings) : Step → List Settings
  | .create c => settings ++ [c]
  | .copy number => settings ++ settings[number]?.toList
  | .setBound number bound => settings.modify number fun c => { c with bound }
  | .setRecalls number recalls => settings.modify number fun c => { c with recalls }
  | .cancel _ | .run .. => settings

/-- The families of the slots after one more step. A family bears the number of its first slot. -/
def beget (families : List Nat) : Step → List Nat
  | .create _ => families ++ [families.length]
  | .copy number => families ++ families[number]?.toList
  | .setBound .. | .setRecalls .. | .cancel _ | .run .. => families

/-- What has been done in a session, and what each step gave. -/
abbrev Past := List (Step × Reply)

/-- The settings of the slots of a session. -/
def Past.settings (past : Past) : List Settings := (past.map (·.1)).foldl settle []

/-- The families of the slots of a session. -/
def Past.families (past : Past) : List Nat := (past.map (·.1)).foldl beget []

/-- The slot that a step has stopped, by itself or by a run that has made enough reports. -/
def stopped? : Step × Reply → Option Nat
  | (.cancel number, .flags _) => some number
  | (.run number _ (some n), .ran r) => if n ≤ r.journal.events.length then some number else none
  | _ => none

/-- The slots that have been stopped in a session. -/
def Past.stops (past : Past) : List Nat := past.filterMap stopped?

/-- Some step has stopped a slot of the same family. -/
def Past.Stopped (past : Past) (number : Nat) : Prop :=
  ∃ m ∈ past.stops, Kin past.families m number

/-- A session and its past. -/
inductive Played : Past → Session → Prop where
  | start : Played [] {}
  | step {past : Past} {s s' : Session} {fuel : Nat} {st : Step} {reply : Reply} :
      Played past s → s.step fuel st = some (reply, s') → Played (past ++ [(st, reply)]) s'

/-- The slot that there has to be for a step. -/
def Step.needs? : Step → Option Nat
  | .copy number | .cancel number | .run number .. => some number
  | .create _ | .setBound .. | .setRecalls .. => none

/-- What a step does to a session. -/
inductive Effect (s : Session) : Step → Reply → Session → Prop where
  | created {c : Settings} : Effect s (.create c) (.slot s.slots.length)
      { s.addSlot ⟨c, s.flags⟩ with flags := s.flags + 1 }
  | copied {number : Nat} {slot : Slot} : s.slots[number]? = some slot →
      Effect s (.copy number) (.slot s.slots.length) (s.addSlot slot)
  | setBound {number : Nat} {bound : Option Nat} : Effect s (.setBound number bound) .done
      (s.modify number fun c => { c with bound })
  | setRecalls {number : Nat} {recalls : Bool} : Effect s (.setRecalls number recalls) .done
      (s.modify number fun c => { c with recalls })
  | cancelled {number : Nat} {slot : Slot} {up : List Bool} : s.slots[number]? = some slot →
      Effect s (.cancel number) (.flags up) { s with raised := slot.flag :: s.raised }
  | ran {number : Nat} {slot : Slot} {problem : Problem} {stopAfter : Option Nat} {r : Run} :
      s.slots[number]? = some slot →
      Effect s (.run number problem stopAfter) (.ran r)
        (if (s.stopOf slot stopAfter).isRaised r.journal
          then { s with raised := slot.flag :: s.raised } else s)
  | missing {st : Step} {number : Nat} : st.needs? = some number → s.slots[number]? = none →
      Effect s st .noSuchSlot s

theorem effect_of_step {s s' : Session} {fuel : Nat} {st : Step} {reply : Reply}
    (h : s.step fuel st = some (reply, s')) : Effect s st reply s' := by
  cases st with
  | create c =>
      cases h
      exact .created
  | copy number =>
      cases hslot : s.slots[number]? with
      | none =>
          simp only [step, hslot] at h
          cases h
          exact .missing rfl hslot
      | some slot =>
          simp only [step, hslot] at h
          cases h
          exact .copied hslot
  | setBound number bound =>
      cases h
      exact .setBound
  | setRecalls number recalls =>
      cases h
      exact .setRecalls
  | cancel number =>
      cases hslot : s.slots[number]? with
      | none =>
          simp only [step, hslot] at h
          cases h
          exact .missing rfl hslot
      | some slot =>
          simp only [step, hslot] at h
          cases h
          exact .cancelled hslot
  | run number problem stopAfter =>
      cases hslot : s.slots[number]? with
      | none =>
          simp only [step, hslot] at h
          cases h
          exact .missing rfl hslot
      | some slot =>
          simp only [step, hslot, Option.bind_eq_bind, Option.bind_eq_some_iff] at h
          obtain ⟨r, _, h⟩ := h
          cases h
          exact .ran hslot

/-! ## The session agrees with its past -/

/-- The slots have these families and flags, so many flags have been given out, these slots have
been stopped, and these flags are up. -/
structure Flagged (families stops flags : List Nat) (count : Nat) (raised : List Nat) : Prop where
  /-- The slots of a family share a flag. -/
  shared : Matching flags families
  families_lt : ∀ family ∈ families, family < families.length
  stops_lt : ∀ m ∈ stops, m < families.length
  flags_lt : ∀ flag ∈ flags, flag < count
  raised_lt : ∀ flag ∈ raised, flag < count
  /-- A flag is up if a slot of the family has been stopped. -/
  mem_raised_iff : ∀ {number flag}, flags[number]? = some flag →
    (flag ∈ raised ↔ ∃ m ∈ stops, Kin families m number)

namespace Flagged

variable {families stops flags raised : List Nat} {count number flag family : Nat}

theorem start : Flagged [] [] [] 0 [] where
  shared := ⟨rfl, Iff.rfl⟩
  families_lt := by simp
  stops_lt := by simp
  flags_lt := by simp
  raised_lt := by simp
  mem_raised_iff := by simp

theorem fresh_family (h : Flagged families stops flags count raised) :
    families.length ∉ families := fun hmem => lt_irrefl _ (h.families_lt _ hmem)

/-- Where a slot has been added, the old flags are up for the same reasons. -/
theorem mem_raised_iff_of_concat (h : Flagged families stops flags count raised)
    (hflag : flags[number]? = some flag) :
    flag ∈ raised ↔ ∃ m ∈ stops, Kin (families ++ [family]) m number := by
  have hlt : number < families.length := by
    rw [← h.shared.length_eq]
    exact (List.getElem?_eq_some_iff.mp hflag).1
  rw [h.mem_raised_iff hflag]
  exact exists_congr fun m => and_congr_right fun hm =>
    (kin_concat_of_lt (h.stops_lt m hm) hlt).symm

theorem stops_lt_concat (h : Flagged families stops flags count raised) :
    ∀ m ∈ stops, m < (families ++ [family]).length := by
  intro m hm
  rw [List.length_append]
  exact Nat.lt_succ_of_lt (h.stops_lt m hm)

/-- A new slot begins a family and gets a flag of its own, which is down. -/
theorem create (h : Flagged families stops flags count raised) :
    Flagged (families ++ [families.length]) stops (flags ++ [count]) (count + 1) raised where
  shared := h.shared.fresh (fun hmem => lt_irrefl _ (h.flags_lt _ hmem)) h.fresh_family
  families_lt := by
    rw [List.forall_mem_append, List.forall_mem_singleton, List.length_append]
    exact ⟨fun f hf => Nat.lt_succ_of_lt (h.families_lt f hf), Nat.lt_succ_self _⟩
  stops_lt := h.stops_lt_concat
  flags_lt := by
    rw [List.forall_mem_append, List.forall_mem_singleton]
    exact ⟨fun f hf => Nat.lt_succ_of_lt (h.flags_lt f hf), Nat.lt_succ_self _⟩
  raised_lt f hf := Nat.lt_succ_of_lt (h.raised_lt f hf)
  mem_raised_iff := by
    intro number flag hflag
    rcases get_concat_iff.mp hflag with hold | ⟨rfl, rfl⟩
    · exact h.mem_raised_iff_of_concat hold
    · -- no flag that is up is new, and no slot of the new family has been stopped
      refine iff_of_false (fun hmem => lt_irrefl _ (h.raised_lt _ hmem)) ?_
      rintro ⟨m, hm, hkin⟩
      rw [h.shared.length_eq, kin_concat_last (h.stops_lt m hm)] at hkin
      exact h.fresh_family (List.mem_of_getElem? hkin)

/-- A copy belongs to the family of its original and shares its flag. -/
theorem copy (h : Flagged families stops flags count raised) (hflag : flags[number]? = some flag)
    (hfamily : families[number]? = some family) :
    Flagged (families ++ [family]) stops (flags ++ [flag]) count raised where
  shared := h.shared.copied hflag hfamily
  families_lt := by
    rw [List.forall_mem_append, List.forall_mem_singleton, List.length_append]
    exact ⟨fun f hf => Nat.lt_succ_of_lt (h.families_lt f hf),
      Nat.lt_succ_of_lt (h.families_lt _ (List.mem_of_getElem? hfamily))⟩
  stops_lt := h.stops_lt_concat
  flags_lt := by
    rw [List.forall_mem_append, List.forall_mem_singleton]
    exact ⟨h.flags_lt, h.flags_lt _ (List.mem_of_getElem? hflag)⟩
  raised_lt := h.raised_lt
  mem_raised_iff := by
    intro number' flag' hflag'
    rcases get_concat_iff.mp hflag' with hold | ⟨rfl, rfl⟩
    · exact h.mem_raised_iff_of_concat hold
    · rw [h.mem_raised_iff hflag, h.shared.length_eq]
      refine exists_congr fun m => and_congr_right fun hm => ?_
      rw [kin_concat_last (h.stops_lt m hm), ← kin_iff hfamily]
      exact ⟨Kin.symm, Kin.symm⟩

/-- When a slot is stopped, the flag of its family goes up. -/
theorem stop (h : Flagged families stops flags count raised) (hflag : flags[number]? = some flag) :
    Flagged families (stops ++ [number]) flags count (flag :: raised) where
  shared := h.shared
  families_lt := h.families_lt
  stops_lt := by
    rw [List.forall_mem_append, List.forall_mem_singleton, ← h.shared.length_eq]
    exact ⟨fun m hm => h.shared.length_eq ▸ h.stops_lt m hm,
      (List.getElem?_eq_some_iff.mp hflag).1⟩
  flags_lt := h.flags_lt
  raised_lt := by
    rw [List.forall_mem_cons]
    exact ⟨h.flags_lt _ (List.mem_of_getElem? hflag), h.raised_lt⟩
  mem_raised_iff := by
    intro number' flag' hflag'
    have hsame : flag' = flag ↔ Kin families number number' := by
      rw [← h.shared.kin_iff, kin_iff hflag, hflag', Option.some.injEq]
    rw [List.mem_cons, h.mem_raised_iff hflag', hsame]
    simp only [List.mem_append, List.mem_singleton, or_and_right, exists_or, exists_eq_left]
    exact or_comm

/-- A flag that is up can be raised again. -/
theorem raise (h : Flagged families stops flags count raised) (hflag : flag ∈ raised) :
    Flagged families stops flags count (flag :: raised) where
  shared := h.shared
  families_lt := h.families_lt
  stops_lt := h.stops_lt
  flags_lt := h.flags_lt
  raised_lt := by
    rw [List.forall_mem_cons]
    exact ⟨h.raised_lt _ hflag, h.raised_lt⟩
  mem_raised_iff := by
    intro number' flag' hflag'
    rw [List.mem_cons, ← h.mem_raised_iff hflag']
    exact ⟨fun hor => hor.elim (fun heq => heq ▸ hflag) id, Or.inr⟩

end Flagged

variable {past : Past} {s s' : Session} {st : Step} {reply : Reply} {number : Nat} {slot : Slot}

@[simp] theorem Past.settings_concat (past : Past) (st : Step) (reply : Reply) :
    Past.settings (past ++ [(st, reply)]) = settle past.settings st := by
  simp [Past.settings]

@[simp] theorem Past.families_concat (past : Past) (st : Step) (reply : Reply) :
    Past.families (past ++ [(st, reply)]) = beget past.families st := by
  simp [Past.families]

@[simp] theorem Past.stops_concat (past : Past) (st : Step) (reply : Reply) :
    Past.stops (past ++ [(st, reply)]) = past.stops ++ (stopped? (st, reply)).toList := by
  unfold Past.stops
  cases h : stopped? (st, reply) <;> simp [h]

/-- What the past says of a session is so. -/
structure Tracks (past : Past) (s : Session) : Prop where
  settings : s.slots.map (·.settings) = past.settings
  flagged : Flagged past.families past.stops (s.slots.map (·.flag)) s.flags s.raised

theorem map_settings_modify (s : Session) (number : Nat) (change : Settings → Settings) :
    (s.modify number change).slots.map (·.settings)
      = (s.slots.map (·.settings)).modify number change := by
  refine List.ext_getElem? fun i => ?_
  simp only [modify, List.getElem?_map, List.getElem?_modify]
  cases s.slots[i]? with
  | none => rfl
  | some slot => by_cases h : number = i <;> simp [h]

theorem map_flag_modify (s : Session) (number : Nat) (change : Settings → Settings) :
    (s.modify number change).slots.map (·.flag) = s.slots.map (·.flag) := by
  refine List.ext_getElem? fun i => ?_
  simp only [modify, List.getElem?_map, List.getElem?_modify]
  cases s.slots[i]? with
  | none => rfl
  | some slot => by_cases h : number = i <;> simp [h]

/-- A run that stops a slot stops its own one. -/
theorem stopped?_run {problem : Problem} {stopAfter : Option Nat} {r : Run} {m : Nat}
    (h : stopped? (.run number problem stopAfter, .ran r) = some m) : m = number := by
  cases stopAfter with
  | none => cases h
  | some n =>
      have hsome : (if n ≤ r.journal.events.length then some number else none) = some m := h
      split at hsome
      · exact (Option.some.inj hsome).symm
      · cases hsome

/-- After a run of a slot, the flag is up if it has been up before or the run has raised it. -/
theorem isRaised_stopOf_iff {problem : Problem} {stopAfter : Option Nat} {r : Run} :
    (s.stopOf slot stopAfter).isRaised r.journal = true
      ↔ slot.flag ∈ s.raised
        ∨ stopped? (.run number problem stopAfter, .ran r) = some number := by
  unfold stopOf isRaised
  by_cases hup : slot.flag ∈ s.raised
  · simp [hup, Stop.isRaised]
  · cases stopAfter with
    | none => simp [hup, Stop.isRaised, stopped?]
    | some n => simp [hup, Stop.isRaised, stopped?]

namespace Tracks

theorem start : Tracks [] {} := ⟨rfl, .start⟩

theorem flag_eq (hslot : s.slots[number]? = some slot) :
    (s.slots.map (·.flag))[number]? = some slot.flag := by
  rw [List.getElem?_map, hslot]
  rfl

/-- A step that stops nobody and adds no slot. -/
theorem quiet (h : Tracks past s) (hstop : stopped? (st, reply) = none)
    (hfamilies : beget past.families st = past.families)
    (hsettings : s'.slots.map (·.settings) = settle past.settings st)
    (hflags : s'.slots.map (·.flag) = s.slots.map (·.flag)) (hcount : s'.flags = s.flags)
    (hraised : s'.raised = s.raised) : Tracks (past ++ [(st, reply)]) s' where
  settings := by rw [hsettings, Past.settings_concat]
  flagged := by
    rw [Past.families_concat, Past.stops_concat, hstop, hfamilies, hflags, hcount, hraised]
    simpa using h.flagged

/-- **A step does to a session what the past says.** -/
theorem effect (h : Tracks past s) (heffect : Effect s st reply s') :
    Tracks (past ++ [(st, reply)]) s' := by
  have hlength : past.families.length = s.slots.length := by
    rw [← h.flagged.shared.length_eq, List.length_map]
  cases heffect with
  | @created c =>
      refine ⟨by simp [addSlot, settle, h.settings], ?_⟩
      have hflagged := h.flagged.create
      simpa [addSlot, beget, stopped?] using hflagged
  | @copied number slot hslot =>
      have hlt : number < past.families.length := by
        rw [hlength]
        exact (List.getElem?_eq_some_iff.mp hslot).1
      have hfamily := List.getElem?_eq_getElem hlt
      have hsettings : past.settings[number]? = some slot.settings := by
        rw [← h.settings, List.getElem?_map, hslot]
        rfl
      refine ⟨by simp [addSlot, settle, h.settings, hsettings], ?_⟩
      have hflagged := h.flagged.copy (flag_eq hslot) hfamily
      simpa [addSlot, beget, stopped?, hfamily] using hflagged
  | setBound =>
      refine h.quiet rfl rfl ?_ (map_flag_modify _ _ _) rfl rfl
      rw [map_settings_modify, h.settings]
      rfl
  | setRecalls =>
      refine h.quiet rfl rfl ?_ (map_flag_modify _ _ _) rfl rfl
      rw [map_settings_modify, h.settings]
      rfl
  | cancelled hslot =>
      refine ⟨by rw [Past.settings_concat]; exact h.settings, ?_⟩
      rw [Past.families_concat, Past.stops_concat]
      exact h.flagged.stop (flag_eq hslot)
  | @ran number slot problem stopAfter r hslot =>
      refine ⟨?_, ?_⟩
      · rw [Past.settings_concat, apply_ite slots, ite_self]
        exact h.settings
      · rw [Past.families_concat, Past.stops_concat, apply_ite slots, ite_self,
          apply_ite Session.flags, ite_self, apply_ite raised]
        show Flagged past.families _ _ _ _
        cases hstop : stopped? (.run number problem stopAfter, .ran r) with
        | some m =>
            obtain rfl := stopped?_run hstop
            rw [if_pos (isRaised_stopOf_iff.mpr (Or.inr hstop))]
            exact h.flagged.stop (flag_eq hslot)
        | none =>
            -- the run has not stopped the slot, so the flag has been up before or is still down
            rw [Option.toList_none, List.append_nil]
            split
            · rename_i hup
              rcases isRaised_stopOf_iff.mp hup with hmem | hstop'
              · exact h.flagged.raise hmem
              · cases hstop.symm.trans hstop'
            · exact h.flagged
  | @missing _ number hneeds hslot =>
      have hnone : past.families.length ≤ number := hlength ▸ List.getElem?_eq_none_iff.mp hslot
      have hsettings : past.settings.length ≤ number := by
        rw [← h.settings, List.length_map]
        exact List.getElem?_eq_none_iff.mp hslot
      cases st with
      | create c => cases hneeds
      | setBound _ _ => cases hneeds
      | setRecalls _ _ => cases hneeds
      | cancel _ => exact h.quiet rfl rfl h.settings rfl rfl rfl
      | run _ _ stopAfter =>
          refine h.quiet ?_ rfl h.settings rfl rfl rfl
          cases stopAfter <;> rfl
      | copy number =>
          cases hneeds
          refine h.quiet rfl ?_ ?_ rfl rfl rfl
          · rw [beget, List.getElem?_eq_none hnone]
            simp
          · rw [settle, List.getElem?_eq_none hsettings, h.settings]
            simp

end Tracks

/-- **What the past says of a session is so at any time.** -/
theorem Played.tracks (h : Played past s) : Tracks past s := by
  induction h with
  | start => exact .start
  | step _ hstep ih => exact ih.effect (effect_of_step hstep)

/-- Playing through a list of steps is one way to get there. -/
theorem Played.play (h : Played past s) {fuel : Nat} {steps : List Step} {replies : List Reply}
    (hplay : s.play fuel steps = some replies) :
    ∃ s', Played (past ++ steps.zip replies) s' := by
  induction steps generalizing past s replies with
  | nil => exact ⟨s, by simpa using h⟩
  | cons st rest ih =>
      simp only [Session.play, Option.bind_eq_bind, Option.bind_eq_some_iff] at hplay
      obtain ⟨⟨reply, s₁⟩, hstep, replies', hrest, hsome⟩ := hplay
      cases hsome
      obtain ⟨s', hs'⟩ := ih (h.step hstep) hrest
      exact ⟨s', by simpa using hs'⟩

/-! ## Runs -/

section Runs

variable {fuel : Nat} {problem : Problem} {stopAfter : Option Nat} {r : Run}

/-- What a run of a slot gives. -/
theorem step_run_iff (hslot : s.slots[number]? = some slot) :
    (∃ s', s.step fuel (.run number problem stopAfter) = some (.ran r, s'))
      ↔ slot.settings.run problem (s.stopOf slot stopAfter) fuel = some r := by
  simp only [step, hslot, Option.bind_eq_bind, Option.bind_eq_some_iff, Option.some.injEq,
    Prod.mk.injEq, Reply.ran.injEq]
  constructor
  · rintro ⟨_, _, hrun, rfl, _⟩
    exact hrun
  · exact fun hrun => ⟨_, r, hrun, rfl, rfl⟩

/-- The moment at which a run stops its own slot. -/
def ownStop : Option Nat → Stop
  | none => .never
  | some n => .atEvent n

theorem stopOf_of_down (h : slot.flag ∉ s.raised) : s.stopOf slot stopAfter = ownStop stopAfter := by
  unfold stopOf isRaised
  rw [if_neg (by simpa using h)]
  rfl

theorem stopOf_of_up (h : slot.flag ∈ s.raised) : s.stopOf slot stopAfter = .atPoll 0 := by
  unfold stopOf isRaised
  rw [if_pos (by simpa using h)]

/-- A session with one strategy, in which nothing has been done yet. -/
def created (c : Settings) : Session := { slots := [⟨c, 0⟩], flags := 1 }

/-- A strategy that has just been created is stopped by nobody but its run. -/
theorem play_fresh_iff {c : Settings} :
    play fuel {} [.create c, .run 0 problem stopAfter] = some [.slot 0, .ran r]
      ↔ c.run problem (ownStop stopAfter) fuel = some r := by
  have hslot : (created c).slots[0]? = some ⟨c, 0⟩ := rfl
  have hdown : (created c).stopOf ⟨c, 0⟩ stopAfter = ownStop stopAfter :=
    stopOf_of_down (List.not_mem_nil)
  have hplay : play fuel {} [.create c, .run 0 problem stopAfter]
      = ((created c).step fuel (.run 0 problem stopAfter)).map fun x => [.slot 0, x.1] := by
    have hcreate : step fuel {} (.create c) = some (.slot 0, created c) := rfl
    rw [play, hcreate, Option.bind_eq_bind, Option.bind_some]
    dsimp only
    rw [play]
    cases (created c).step fuel (.run 0 problem stopAfter) with
    | none => rfl
    | some x => rfl
  rw [hplay, ← hdown, ← step_run_iff hslot]
  constructor
  · intro hsome
    obtain ⟨⟨reply, s'⟩, hstep, heq⟩ := Option.map_eq_some_iff.mp hsome
    cases heq
    exact ⟨s', hstep⟩
  · rintro ⟨s', hstep⟩
    rw [hstep]
    rfl

end Runs

/--
**A session carries nothing from run to run but flags.**

Take any session: strategies have been created, copied, set up anew, stopped and run, some runs with
a stop after so many of their own reports. The flag of a slot is up if and only if some step has
stopped a slot of its family. With the flag up, a run of the slot ends, and it has found nothing.
With the flag down it is the run of a strategy created just now with the settings of that slot,
whatever was done to the others.
-/
theorem only_flags_persist (past : Past) (s : Session) (h : Played past s) :
    (∀ number slot, s.slots[number]? = some slot →
        (s.isRaised slot = true ↔ past.Stopped number))
      ∧ ∀ number c, past.settings[number]? = some c → ∀ problem stopAfter,
        (past.Stopped number →
          (∃ fuel₀, ∀ fuel ≥ fuel₀, ∃ r s',
            s.step fuel (.run number problem stopAfter) = some (.ran r, s'))
          ∧ ∀ fuel r s', s.step fuel (.run number problem stopAfter) = some (.ran r, s') →
            r.result = .ok none)
        ∧ (¬ past.Stopped number → ∀ fuel r,
          (∃ s', s.step fuel (.run number problem stopAfter) = some (.ran r, s'))
            ↔ play fuel {} [.create c, .run 0 problem stopAfter] = some [.slot 0, .ran r]) := by
  have htracks := h.tracks
  have hraised : ∀ {number slot}, s.slots[number]? = some slot →
      (slot.flag ∈ s.raised ↔ past.Stopped number) :=
    fun hslot => htracks.flagged.mem_raised_iff (Tracks.flag_eq hslot)
  refine ⟨?_, ?_⟩
  · intro number slot hslot
    rw [isRaised, List.contains_iff_mem]
    exact hraised hslot
  · intro number c hc problem stopAfter
    rw [← htracks.settings, List.getElem?_map, Option.map_eq_some_iff] at hc
    obtain ⟨slot, hslot, rfl⟩ := hc
    refine ⟨?_, ?_⟩
    · intro hstopped
      have hM := slot.settings.stoppable problem
      have hrun := slot.settings.computedBy problem
      have hup : s.stopOf slot stopAfter = .atPoll 0 := stopOf_of_up ((hraised hslot).mpr hstopped)
      refine ⟨?_, ?_⟩
      · have hearly : (Stop.atPoll 0).isRaised .empty = true := rfl
        obtain ⟨fuel₀, r, hfuel, _⟩ := hM.none_of_raised hrun hearly
        refine ⟨fuel₀, fun fuel hle => ⟨r, (step_run_iff hslot).mpr ?_⟩⟩
        rw [hup]
        exact hfuel fuel hle
      · intro fuel r s' hstep
        have hran := (step_run_iff hslot).mp ⟨s', hstep⟩
        rw [hup] at hran
        exact hM.result_of_raised rfl (hrun.yields hran)
    · intro hstopped fuel r
      rw [step_run_iff hslot, play_fresh_iff,
        stopOf_of_down (fun hmem => hstopped ((hraised hslot).mp hmem))]

/-- A slot, a copy that is set up anew, and another slot. -/
def threesome : List Step :=
  [.create ⟨.divideAndConquer, true, none⟩, .copy 0, .setBound 1 (some 1),
    .create ⟨.topDown, false, some 1⟩]

/-- The first slot stops itself with its first report. From then on the flag of its copy is up, and
the copy finds nothing. The other slot has not noticed. -/
theorem only_flags_persist_threesome :
    ∃ past s, Played past s ∧ past.map (·.1) = threesome ++ [.run 0 .branching (some 1)]
      ∧ (∃ slot, s.slots[1]? = some slot ∧ past.Stopped 1 ∧ s.isRaised slot = true)
      ∧ (∃ r s', s.step 100 (.run 1 .branching none) = some (.ran r, s') ∧ r.result = .ok none)
      ∧ ∃ r, (∃ s', s.step 100 (.run 2 .branching none) = some (.ran r, s'))
        ∧ ¬ past.Stopped 2
        ∧ play 100 {} [.create ⟨.topDown, false, some 1⟩, .run 0 .branching none]
          = some [.slot 0, .ran r] := by
  obtain ⟨past, s, hplayed, hsteps, hfamilies, hstops, hsettings, ⟨slot, hslot⟩, ⟨r₁, s₁, hrun₁⟩,
      r₂, s₂, hrun₂⟩ :
      ∃ past s, Played past s ∧ past.map (·.1) = threesome ++ [.run 0 .branching (some 1)]
        ∧ past.families = [0, 0, 2] ∧ past.stops = [0]
        ∧ past.settings = [⟨.divideAndConquer, true, none⟩, ⟨.divideAndConquer, true, some 1⟩,
          ⟨.topDown, false, some 1⟩]
        ∧ (∃ slot, s.slots[1]? = some slot)
        ∧ (∃ r s', s.step 100 (.run 1 .branching none) = some (.ran r, s'))
        ∧ ∃ r s', s.step 100 (.run 2 .branching none) = some (.ran r, s') := by
    have hplayed : Played _ _ := .step (.step (.step (.step (.step .start
      (show step 100 _ (.create ⟨.divideAndConquer, true, none⟩) = _ from rfl))
      (show step 100 _ (.copy 0) = _ from rfl)) (show step 100 _ (.setBound 1 (some 1)) = _ from rfl))
      (show step 100 _ (.create ⟨.topDown, false, some 1⟩) = _ from rfl))
      (show step 100 _ (.run 0 .branching (some 1)) = _ from rfl)
    exact ⟨_, _, hplayed, rfl, rfl, rfl, rfl, ⟨_, rfl⟩, ⟨_, _, rfl⟩, ⟨_, _, rfl⟩⟩
  have hstopped : past.Stopped 1 :=
    ⟨0, by rw [hstops]; exact List.mem_singleton_self 0, 0, by rw [hfamilies]; exact ⟨rfl, rfl⟩⟩
  have hspared : ¬ past.Stopped 2 := by
    rintro ⟨m, hm, x, hx, hx'⟩
    rw [hstops] at hm
    rw [hfamilies] at hx hx'
    cases List.mem_singleton.mp hm
    cases hx
    cases hx'
  obtain ⟨hflags, hruns⟩ := only_flags_persist past s hplayed
  exact ⟨past, s, hplayed, hsteps, ⟨slot, hslot, hstopped, (hflags 1 slot hslot).mpr hstopped⟩,
    ⟨r₁, s₁, hrun₁, ((hruns 1 _ (by rw [hsettings]; rfl) _ _).1 hstopped).2 100 r₁ s₁ hrun₁⟩,
    r₂, ⟨s₂, hrun₂⟩, hspared,
    ((hruns 2 _ (by rw [hsettings]; rfl) _ _).2 hspared 100 r₂).mp ⟨s₂, hrun₂⟩⟩

end Sygus.Strategy.Session
