import Mdclog.Foundation.HeapProgram
import Mathlib.Data.List.Nodup

/-! Linked lists over field maps: `next a` is the field of the node at `a`, or
`none` where no node lives. -/
namespace Foundation.LinkedList
open HeapProgram

/-- Following `next` from `p` visits exactly `addrs` and ends at the null pointer. -/
def Forward (next : Addr → Option Pointer) : Pointer → List Addr → Prop
  | p, [] => p = none
  | p, a :: addrs => p = some a ∧ ∃ q, next a = some q ∧ Forward next q addrs

/-- Every node points back to the one before it, the first to `p`. -/
def Backward (prev : Addr → Option Pointer) : Pointer → List Addr → Prop
  | _, [] => True
  | p, a :: addrs => prev a = some p ∧ Backward prev (some a) addrs

/-- The field of the node behind `p`, if there is one, set to `value`. -/
def assign (field : Addr → Option Pointer) (p : Pointer) (value : Pointer) :
    Addr → Option Pointer :=
  match p with
  | none => field
  | some a => Function.update field a (some value)

variable {next prev : Addr → Option Pointer} {p q : Pointer} {addrs front back : List Addr}
  {a : Addr}

theorem Forward.head (h : Forward next p addrs) : p = addrs.head? := by
  cases addrs with
  | nil => exact h
  | cons a addrs => exact h.1

theorem Forward.congr {next' : Addr → Option Pointer} (h : Forward next p addrs)
    (hagree : ∀ a ∈ addrs, next' a = next a) : Forward next' p addrs := by
  induction addrs generalizing p with
  | nil => exact h
  | cons a addrs ih =>
    obtain ⟨hp, q, hq, hrest⟩ := h
    exact ⟨hp, q, (hagree a (by simp)).trans hq, ih hrest fun c hc => hagree c (by simp [hc])⟩

theorem Backward.congr {prev' : Addr → Option Pointer} (h : Backward prev p addrs)
    (hagree : ∀ a ∈ addrs, prev' a = prev a) : Backward prev' p addrs := by
  induction addrs generalizing p with
  | nil => trivial
  | cons a addrs ih =>
    exact ⟨(hagree a (by simp)).trans h.1, ih h.2 fun c hc => hagree c (by simp [hc])⟩

/-- The nodes on the way are live. -/
theorem Forward.live (h : Forward next p addrs) (ha : a ∈ addrs) : ∃ q, next a = some q := by
  induction addrs generalizing p with
  | nil => simp at ha
  | cons c addrs ih =>
    obtain ⟨_, q, hq, hrest⟩ := h
    rcases List.mem_cons.mp ha with rfl | ha
    · exact ⟨q, hq⟩
    · exact ih hrest ha

/-- A list is determined by where it starts. -/
theorem Forward.unique {other : List Addr} (h : Forward next p addrs)
    (hother : Forward next p other) : addrs = other := by
  induction addrs generalizing p other with
  | nil =>
    cases other with
    | nil => rfl
    | cons c other => exact absurd (h.symm.trans hother.1) (by simp)
  | cons a addrs ih =>
    obtain ⟨rfl, q, hq, hrest⟩ := h
    cases other with
    | nil => exact absurd hother (by simp [Forward])
    | cons c other =>
      obtain ⟨hc, q', hq', hrest'⟩ := hother
      cases hc
      rw [hq, Option.some.injEq] at hq'
      subst hq'
      rw [ih hrest hrest']

/-- No list leads through a dead node. -/
theorem Forward.broken {next' : Addr → Option Pointer} (h : Forward next p (front ++ a :: back))
    (hagree : ∀ c ∈ front, next' c = next c) (hdead : next' a = none) : ¬Forward next' p addrs := by
  induction front generalizing p addrs with
  | nil =>
    obtain ⟨rfl, -⟩ := h
    cases addrs with
    | nil => exact nofun
    | cons c addrs =>
      rintro ⟨⟨rfl⟩, q, hq, -⟩
      rw [hdead] at hq
      cases hq
  | cons b front ih =>
    obtain ⟨rfl, q, hq, hrest⟩ := h
    cases addrs with
    | nil => exact nofun
    | cons c addrs =>
      rintro ⟨⟨rfl⟩, q', hq', hrest'⟩
      rw [hagree b (by simp), hq, Option.some.injEq] at hq'
      subst hq'
      exact ih hrest (fun c hc => hagree c (by simp [hc])) hrest'

theorem Forward.append_right (h : Forward next p (front ++ back)) :
    ∃ q, Forward next q back := by
  induction front generalizing p with
  | nil => exact ⟨p, h⟩
  | cons a front ih =>
    obtain ⟨_, q, _, hrest⟩ := h
    exact ih hrest

/-- A list that ends has no cycle. -/
theorem Forward.nodup (h : Forward next p addrs) : addrs.Nodup := by
  induction addrs generalizing p with
  | nil => exact List.nodup_nil
  | cons a addrs ih =>
    have hrest : ∃ q, Forward next q addrs := ⟨_, h.2.choose_spec.2⟩
    refine List.nodup_cons.mpr ⟨?_, ih hrest.choose_spec⟩
    intro hmem
    -- a second visit to `a` would start the same list again, one node shorter
    obtain ⟨before, after, rfl⟩ := List.append_of_mem hmem
    obtain ⟨q, hq⟩ := hrest
    obtain ⟨r, hr⟩ := hq.append_right
    have hp := h.1
    rw [hr.1.trans hp.symm] at hr
    have hlength := congrArg List.length (h.unique hr)
    simp only [List.length_cons, List.length_append] at hlength
    omega

theorem Forward.push (h : Forward next p addrs) (ha : next a = some p) :
    Forward next (some a) (a :: addrs) := ⟨rfl, p, ha, h⟩

theorem Forward.next_middle (h : Forward next p (front ++ a :: back)) :
    next a = some back.head? := by
  induction front generalizing p with
  | nil =>
    obtain ⟨_, q, hq, hrest⟩ := h
    rw [hq, hrest.head]
  | cons c front ih =>
    obtain ⟨_, q, _, hrest⟩ := h
    exact ih hrest

/-- The node in front of the unlinked one takes over its `next`. -/
theorem Forward.unlink {m : Addr} (h : Forward next p (front ++ m :: a :: back)) :
    Forward (assign next (some m) back.head?) p (front ++ m :: back) := by
  have hnodup := h.nodup
  induction front generalizing p with
  | nil =>
    obtain ⟨rfl, q, hq, -, r, hr, hback⟩ := h
    rw [List.nil_append, List.nodup_cons] at hnodup
    refine ⟨rfl, back.head?, by simp [assign], ?_⟩
    rw [← hback.head]
    refine hback.congr fun c hc => Function.update_of_ne ?_ _ _
    rintro rfl
    exact hnodup.1 (by simp [hc])
  | cons c front ih =>
    obtain ⟨rfl, q, hq, hrest⟩ := h
    rw [List.cons_append, List.nodup_cons] at hnodup
    refine ⟨rfl, q, ?_, ih hrest hnodup.2⟩
    rw [assign, Function.update_of_ne, hq]
    rintro rfl
    exact hnodup.1 (by simp)

theorem Backward.push (h : Backward prev p addrs) (ha : prev a = some none) (hnodup : addrs.Nodup)
    (hnew : a ∉ addrs) :
    Backward (assign prev addrs.head? (some a)) none (a :: addrs) := by
  cases addrs with
  | nil => exact ⟨ha, trivial⟩
  | cons c addrs =>
    rw [List.mem_cons, not_or] at hnew
    refine ⟨?_, ?_, ?_⟩
    · simpa [assign, Function.update_of_ne hnew.1] using ha
    · simp [assign]
    · refine h.2.congr fun d hd => Function.update_of_ne ?_ _ _
      rintro rfl
      exact (List.nodup_cons.mp hnodup).1 hd

theorem Backward.prev_middle (h : Backward prev p (front ++ a :: back)) :
    prev a = some (front.getLast?.or p) := by
  induction front generalizing p with
  | nil => exact h.1
  | cons c front ih =>
    rw [ih h.2]
    cases hlast : front.getLast? with
    | none =>
      rw [List.getLast?_eq_none_iff] at hlast
      simp [hlast]
    | some d => simp [List.getLast?_cons, hlast]

/-- The node behind the unlinked one takes over its `prev`. -/
theorem Backward.unlink (h : Backward prev p (front ++ a :: back))
    (hnodup : (front ++ a :: back).Nodup) :
    Backward (assign prev back.head? (front.getLast?.or p)) p (front ++ back) := by
  induction front generalizing p with
  | nil =>
    cases back with
    | nil => trivial
    | cons c back =>
      refine ⟨by simp [assign], h.2.2.congr fun d hd => Function.update_of_ne ?_ _ _⟩
      rintro rfl
      simp_all
  | cons d front ih =>
    rw [List.cons_append, List.nodup_cons] at hnodup
    have hrest := ih h.2 hnodup.2
    have hlast : (d :: front).getLast?.or p = front.getLast?.or (some d) := by
      rw [List.getLast?_cons]
      cases front.getLast? <;> rfl
    rw [hlast]
    refine ⟨?_, hrest⟩
    cases back with
    | nil => exact h.1
    | cons c back =>
      rw [List.head?_cons, assign, Function.update_of_ne, h.1]
      rintro rfl
      exact hnodup.1 (by simp)

/-- The successor of a node is a node of the list and points back to it. -/
theorem successor (hforward : Forward next p addrs) (hbackward : Backward prev q addrs)
    (ha : a ∈ addrs) {b : Addr} (hb : next a = some (some b)) :
    b ∈ addrs ∧ prev b = some (some a) := by
  induction addrs generalizing p q with
  | nil => simp at ha
  | cons c addrs ih =>
    obtain ⟨-, r, hr, hrest⟩ := hforward
    rcases List.mem_cons.mp ha with rfl | ha
    · rw [hr, Option.some.injEq] at hb
      subst hb
      cases addrs with
      | nil => simp [Forward] at hrest
      | cons d addrs =>
        obtain ⟨hd, -⟩ := hrest
        rw [Option.some.injEq] at hd
        subst hd
        exact ⟨by simp, hbackward.2.1⟩
    · obtain ⟨hmem, hprev⟩ := ih hrest hbackward.2 ha
      exact ⟨List.mem_cons_of_mem _ hmem, hprev⟩

end Foundation.LinkedList
