import Mathlib.Data.Finset.Erase
import Mathlib.Logic.Hydra
import Mdclog.Foundation.LockedOwners

/-! Calls that use only what they own are never stuck: some thread in a call can always
go on, and without new calls all of them end. -/
namespace Foundation.LockedHeap

/-! What is left of a call gets smaller. -/

/-- `code'` is what is left of `code` after a step. -/
def After (code' : Code) : Code → Prop
  | .done => False
  | .readFlag next => ∃ value, code' = next value
  | .readShared next | .readObject _ next | .malloc next | .newObject next =>
      ∃ p, code' = next p
  | .writeFlag _ next | .wrlock next | .rdlock next | .unlock next | .writeShared _ next
  | .writeObject _ _ next | .freeObject _ next | .access _ next | .free _ next => code' = next

theorem acc_after (code : Code) : Acc After code := by
  induction code with
  | done => exact .intro _ fun _ h => h.elim
  | readFlag next ih | readShared next ih | readObject a next ih | malloc next ih
  | newObject next ih =>
    refine .intro _ ?_
    rintro _ ⟨value, rfl⟩
    exact ih value
  | writeFlag value next ih | wrlock next ih | rdlock next ih | unlock next ih
  | writeShared p next ih | writeObject a p next ih | freeObject a next ih | access p next ih
  | free p next ih =>
    refine .intro _ ?_
    rintro _ rfl
    exact ih

section progress
variable {T Call : Type} [DecidableEq T] {calls : Calls Call} {s s' : State T Call} {t : T}

/-- A thread goes on with its call, or comes back from it. -/
inductive Closer : Thread Call → Thread Call → Prop
  | after {call : Call} {code code' : Code} (h : After code' code) :
      Closer (.running call code') (.running call code)
  | back {call : Call} : Closer .idle (.running call .done)

theorem closer_wf (Call : Type) : WellFounded (@Closer Call) := by
  have hidle : Acc Closer (.idle : Thread Call) := .intro _ nofun
  refine ⟨fun thread => ?_⟩
  cases thread with
  | idle => exact hidle
  | running call code =>
    induction acc_after code with
    | intro code _ ih =>
      refine .intro _ ?_
      rintro _ (⟨hafter⟩ | -)
      · exact ih _ hafter
      · exact hidle

theorem advance_after {call : Call} {choice : Option Nat} {code : Code}
    (h : advance s t call choice code = some s') :
    ∃ code', After code' code ∧
      s'.thread = Function.update s.thread t (.running call code') := by
  cases code with
  | done => cases h
  | readFlag next | readShared next =>
    cases h
    exact ⟨_, ⟨_, rfl⟩, rfl⟩
  | writeFlag value next | unlock next | writeShared p next | access p next | free p next =>
    cases h
    exact ⟨_, rfl, rfl⟩
  | wrlock next | rdlock next =>
    obtain ⟨-, hsome⟩ := Option.ite_none_right_eq_some.mp h
    cases hsome
    exact ⟨_, rfl, rfl⟩
  | readObject a next =>
    obtain ⟨p, -, rfl⟩ := Option.map_eq_some_iff.mp h
    exact ⟨_, ⟨p, rfl⟩, rfl⟩
  | writeObject a p next | freeObject a next =>
    obtain ⟨q, -, rfl⟩ := Option.map_eq_some_iff.mp h
    exact ⟨_, rfl, rfl⟩
  | newObject next | malloc next =>
    cases choice with
    | none =>
      cases h
      exact ⟨_, ⟨none, rfl⟩, rfl⟩
    | some a =>
      obtain ⟨-, hsome⟩ := Option.ite_none_right_eq_some.mp h
      cases hsome
      exact ⟨_, ⟨some a, rfl⟩, rfl⟩

/-- A step of a thread that is in a call. -/
def Goes (calls : Calls Call) (s s' : State T Call) : Prop :=
  ∃ t, (∃ choice, step calls s (.advance t choice) = some s') ∨ step calls s (.finish t) = some s'

theorem Goes.closer (h : Goes calls s s') :
    ∃ t thread, Closer thread (s.thread t) ∧ s.thread t ≠ .idle ∧
      s'.thread = Function.update s.thread t thread := by
  obtain ⟨t, ⟨choice, hstep⟩ | hstep⟩ := h
  · rcases step_cases calls hstep with ⟨_, _, ⟨⟩, -⟩ | ⟨_, _, ⟨⟩, -⟩ |
      ⟨_, _, call, code, ⟨⟩, hthread, hadvance⟩
    obtain ⟨code', hafter, hupdate⟩ := advance_after hadvance
    refine ⟨t, _, ?_, by rw [hthread]; nofun, hupdate⟩
    rw [hthread]
    exact .after hafter
  · rcases step_cases calls hstep with ⟨_, _, ⟨⟩, -⟩ | ⟨_, call, ⟨⟩, hthread, rfl⟩ |
      ⟨_, _, _, _, ⟨⟩, -⟩
    refine ⟨t, .idle, ?_, by rw [hthread]; nofun, rfl⟩
    rw [hthread]
    exact .back

/-- All the threads that are in a call. -/
def Busy (s : State T Call) (busy : Finset T) : Prop := ∀ t, s.thread t ≠ .idle → t ∈ busy

theorem cutExpand_update {busy : Finset T} {threads : T → Thread Call} {thread : Thread Call}
    (ht : t ∈ busy) (h : Closer thread (threads t)) :
    Relation.CutExpand Closer (busy.val.map (Function.update threads t thread))
      (busy.val.map threads) := by
  rw [← Finset.insert_erase ht, Finset.insert_val_of_notMem (Finset.notMem_erase t busy),
    Multiset.map_cons, Multiset.map_cons, Function.update_self]
  have hrest : (busy.erase t).val.map (Function.update threads t thread) =
      (busy.erase t).val.map threads := by
    refine Multiset.map_congr rfl fun u hu => Function.update_of_ne ?_ _ _
    exact Finset.ne_of_mem_erase hu
  rw [hrest, ← Multiset.singleton_add, ← Multiset.singleton_add]
  exact Relation.cutExpand_single_add h _

/-- Without new calls every run ends. -/
theorem acc_goes {busy : Finset T} (h : Busy s busy) :
    Acc (fun s' s => Goes calls s s') s := by
  have hacc := (closer_wf Call).cutExpand.apply (busy.val.map s.thread)
  generalize hmeasure : busy.val.map s.thread = threads at hacc
  induction hacc generalizing s with
  | intro threads _ ih =>
    subst hmeasure
    refine .intro _ fun s' hgoes => ?_
    obtain ⟨t, thread, hcloser, hbusy, hupdate⟩ := hgoes.closer
    refine ih (busy.val.map s'.thread) ?_ ?_ rfl
    · rw [hupdate]
      exact cutExpand_update (h t hbusy) hcloser
    · intro u hu
      by_cases hut : u = t
      · rw [hut]
        exact h t hbusy
      · rw [hupdate, Function.update_of_ne hut] at hu
        exact h u hu

theorem goes_of_advance {call : Call} {code : Code} (hthread : s.thread t = .running call code)
    (h : (advance s t call none code).isSome) : ∃ s', Goes calls s s' := by
  obtain ⟨s', hs'⟩ := Option.isSome_iff_exists.mp h
  refine ⟨s', t, .inl ⟨none, ?_⟩⟩
  rw [step, hthread]
  exact hs'

/-- A call that is not at the lock can go on, with an allocation that fails if need be. -/
theorem Fits.goes {locals : T → Local} (h : Fits calls s locals) {call : Call} {code : Code}
    (hthread : s.thread t = .running call code) (hwr : ∀ next, code ≠ .wrlock next)
    (hrd : ∀ next, code ≠ .rdlock next) : ∃ s', Goes calls s s' := by
  have hfaults := h.not_faults t
  rw [Faults, hthread] at hfaults
  cases code with
  | done =>
    refine ⟨s.goto t .idle, t, .inr ?_⟩
    rw [LockedHeap.step, hthread]
  | wrlock next => exact absurd rfl (hwr next)
  | rdlock next => exact absurd rfl (hrd next)
  | readObject a next | writeObject a p next | freeObject a next =>
    obtain ⟨q, hq⟩ := Option.ne_none_iff_exists'.mp hfaults
    refine goes_of_advance hthread ?_
    rw [LockedHeap.advance, hq]
    rfl
  | _ => exact goes_of_advance hthread rfl

/-- Who holds the lock is in a call and not at the lock. -/
theorem Fits.goes_of_mode {locals : T → Local} (h : Fits calls s locals)
    (hmode : (locals t).mode ≠ .out) : ∃ s', Goes calls s s' := by
  have hfits := h.threads t
  cases hthread : s.thread t with
  | idle => exact absurd (hfits.idle hthread) hmode
  | running call code =>
    have hsafe := hfits.safe call code hthread
    refine h.goes hthread ?_ ?_
    · rintro next rfl
      exact hmode hsafe.2.1
    · rintro next rfl
      exact hmode hsafe.2.1

theorem Fits.goes_of_holder {locals : T → Local} (h : Fits calls s locals)
    (hheld : s.writer = some t ∨ t ∈ s.readers) : ∃ s', Goes calls s s' := by
  refine h.goes_of_mode (t := t) fun hout => ?_
  have hmode := (h.threads t).mode
  rw [hout] at hmode
  exact hheld.elim hmode.1 hmode.2

/-- No deadlock. -/
theorem Fits.progress {locals : T → Local} (h : Fits calls s locals)
    (hbusy : s.thread t ≠ .idle) : ∃ s', Goes calls s s' := by
  cases hthread : s.thread t with
  | idle => exact absurd hthread hbusy
  | running call code =>
    by_cases hwr : ∃ next, code = .wrlock next
    · obtain ⟨next, rfl⟩ := hwr
      cases hwriter : s.writer with
      | some u => exact h.goes_of_holder (.inl hwriter)
      | none =>
        rcases s.readers.eq_empty_or_nonempty with hempty | ⟨u, hu⟩
        · refine goes_of_advance hthread ?_
          rw [LockedHeap.advance, if_pos ⟨hwriter, hempty⟩]
          rfl
        · exact h.goes_of_holder (.inr hu)
    · by_cases hrd : ∃ next, code = .rdlock next
      · obtain ⟨next, rfl⟩ := hrd
        cases hwriter : s.writer with
        | some u => exact h.goes_of_holder (.inl hwriter)
        | none =>
          refine goes_of_advance hthread ?_
          rw [LockedHeap.advance, if_pos hwriter]
          rfl
      · exact h.goes hthread (fun next heq => hwr ⟨next, heq⟩) fun next heq => hrd ⟨next, heq⟩

omit [DecidableEq T] in
/-- Between calls nobody holds the lock. -/
theorem Fits.unlocked {locals : T → Local} (h : Fits calls s locals)
    (hidle : ∀ t, s.thread t = .idle) : s.writer = none ∧ s.readers = ∅ := by
  have hout : ∀ t, s.writer ≠ some t ∧ t ∉ s.readers := by
    intro t
    have hmode := (h.threads t).mode
    rw [(h.threads t).idle (hidle t)] at hmode
    exact hmode
  exact ⟨Option.eq_none_iff_forall_ne_some.mpr fun t => (hout t).1,
    Finset.eq_empty_of_forall_notMem fun t => (hout t).2⟩

/-- Only finitely many calls are under way. -/
theorem run_busy {may : State T Call → Label T Call → Prop} {labels : List (Label T Call)}
    (hrun : (machine calls T).Run may labels s) : ∃ busy, Busy s busy := by
  induction hrun with
  | start => exact ⟨∅, fun t ht => absurd rfl ht⟩
  | @step labels label s s' _ _ hstep ih =>
    obtain ⟨busy, hbusy⟩ := ih
    have hsame : ∀ t thread, s.thread t ≠ .idle →
        s'.thread = Function.update s.thread t thread → Busy s' busy := by
      intro t thread ht hthread u hu
      by_cases hut : u = t
      · exact hut ▸ hbusy t ht
      · rw [hthread, Function.update_of_ne hut] at hu
        exact hbusy u hu
    rcases step_cases calls hstep with ⟨t, call, -, -, rfl⟩ | ⟨t, call, -, hthread, rfl⟩ |
      ⟨t, choice, call, code, -, hthread, hadvance⟩
    · refine ⟨insert t busy, fun u hu => ?_⟩
      by_cases hut : u = t
      · exact hut ▸ Finset.mem_insert_self t busy
      · change Function.update s.thread t _ u ≠ .idle at hu
        rw [Function.update_of_ne hut] at hu
        exact Finset.mem_insert_of_mem (hbusy u hu)
    · exact ⟨busy, hsame t .idle (by rw [hthread]; nofun) rfl⟩
    · obtain ⟨code', -, hupdate⟩ := advance_after hadvance
      exact ⟨busy, hsame t _ (by rw [hthread]; nofun) hupdate⟩

end progress

end Foundation.LockedHeap
