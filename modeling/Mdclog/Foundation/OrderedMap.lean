import Mathlib.Data.List.Nodup

/-! Finite maps as lists of pairs in insertion order, the latest key first. -/
namespace Foundation.OrderedMap

variable {K V : Type} [DecidableEq K]

def keys (m : List (K × V)) : List K := m.map Prod.fst

/-- A known key keeps its place, a new one goes in front. -/
def put (k : K) (v : V) (m : List (K × V)) : List (K × V) :=
  if k ∈ keys m then m.map fun p => if p.1 = k then (k, v) else p else (k, v) :: m

def erase (k : K) (m : List (K × V)) : List (K × V) := m.filter fun p => p.1 ≠ k

def get? (k : K) (m : List (K × V)) : Option V := (m.find? fun p => p.1 = k).map Prod.snd

variable {k : K} {v old : V} {m front back : List (K × V)}

theorem put_of_notMem (h : k ∉ keys m) : put k v m = (k, v) :: m := if_neg h

theorem keys_put (k : K) (v : V) (m : List (K × V)) :
    keys (put k v m) = if k ∈ keys m then keys m else k :: keys m := by
  unfold put
  split
  · unfold keys
    rw [List.map_map]
    apply List.map_congr_left
    intro p _
    by_cases hp : p.1 = k <;> simp [hp]
  · rfl

theorem nodup_put (h : (keys m).Nodup) : (keys (put k v m)).Nodup := by
  rw [keys_put]
  split
  · exact h
  · exact List.nodup_cons.mpr ⟨‹_›, h⟩

theorem nodup_erase (h : (keys m).Nodup) : (keys (erase k m)).Nodup :=
  h.sublist (List.filter_sublist.map _)

theorem mem_put {p : K × V} (h : p ∈ put k v m) : p = (k, v) ∨ p ∈ m := by
  unfold put at h
  split at h
  · obtain ⟨q, hq, rfl⟩ := List.mem_map.mp h
    by_cases hk : q.1 = k
    · simp [hk]
    · simp [hk, hq]
  · exact List.mem_cons.mp h

theorem mem_erase {p : K × V} (h : p ∈ erase k m) : p ∈ m := List.mem_of_mem_filter h

omit [DecidableEq K] in
/-- Away from the key a filter or a map of the pairs with it has no effect. -/
theorem notMem_middle (h : (keys (front ++ (k, old) :: back)).Nodup) :
    (∀ p ∈ front, p.1 ≠ k) ∧ ∀ p ∈ back, p.1 ≠ k := by
  simp only [keys, List.map_append, List.map_cons, List.nodup_middle, List.nodup_cons,
    List.mem_append, not_or] at h
  constructor
  · rintro p hp rfl
    exact h.1.1 (List.mem_map_of_mem hp)
  · rintro p hp rfl
    exact h.1.2 (List.mem_map_of_mem hp)

theorem put_middle (h : (keys (front ++ (k, old) :: back)).Nodup) :
    put k v (front ++ (k, old) :: back) = front ++ (k, v) :: back := by
  obtain ⟨hfront, hback⟩ := notMem_middle h
  have hsame : ∀ part : List (K × V), (∀ p ∈ part, p.1 ≠ k) →
      (part.map fun p => if p.1 = k then (k, v) else p) = part := by
    intro part hpart
    nth_rewrite 2 [← List.map_id part]
    exact List.map_congr_left fun p hp => if_neg (hpart p hp)
  rw [put, if_pos (by simp [keys]), List.map_append, List.map_cons, hsame front hfront,
    hsame back hback, if_pos rfl]

theorem get?_cons (p : K × V) (m : List (K × V)) :
    get? k (p :: m) = if p.1 = k then some p.2 else get? k m := by
  unfold get?
  by_cases hp : p.1 = k <;> simp [hp]

theorem get?_put_self (k : K) (v : V) (m : List (K × V)) : get? k (put k v m) = some v := by
  unfold put
  split
  · rename_i hmem
    induction m with
    | nil => simp [keys] at hmem
    | cons p m ih =>
      rw [List.map_cons, get?_cons]
      by_cases hp : p.1 = k
      · simp [hp]
      · simp only [hp, if_false]
        apply ih
        simpa [keys, Ne.symm hp] using hmem
  · rw [get?_cons, if_pos rfl]

theorem get?_put_of_ne {c : K} (h : c ≠ k) (v : V) (m : List (K × V)) :
    get? c (put k v m) = get? c m := by
  unfold put
  split
  · clear * - h
    induction m with
    | nil => rfl
    | cons p m ih =>
      rw [List.map_cons, get?_cons, get?_cons, ih]
      by_cases hp : p.1 = k
      · simp [hp, h.symm]
      · simp [hp]
  · rw [get?_cons, if_neg h.symm]

theorem get?_erase_self (k : K) (m : List (K × V)) : get? k (erase k m) = none := by
  simp [get?, erase, List.find?_filter]

theorem get?_erase_of_ne {c : K} (h : c ≠ k) (m : List (K × V)) :
    get? c (erase k m) = get? c m := by
  induction m with
  | nil => rfl
  | cons p m ih =>
    unfold erase at ih ⊢
    by_cases hp : p.1 = k
    · rw [List.filter_cons_of_neg (by simp [hp]), get?_cons, if_neg (by rw [hp]; exact h.symm), ih]
    · rw [List.filter_cons_of_pos (by simp [hp]), get?_cons, get?_cons, ih]

theorem erase_of_get?_none (h : get? k m = none) : erase k m = m := by
  rw [get?, Option.map_eq_none_iff, List.find?_eq_none] at h
  apply List.filter_eq_self.mpr
  intro p hp
  simpa using h p hp

/-- The pairs with other keys stay as they are, in their order. -/
theorem filter_put {keep : K → Bool} (h : keep k = false) (v : V) (m : List (K × V)) :
    (put k v m).filter (fun p => keep p.1) = m.filter fun p => keep p.1 := by
  unfold put
  split
  · clear * - h
    induction m with
    | nil => rfl
    | cons p m ih =>
      rw [List.map_cons, List.filter_cons, List.filter_cons, ih]
      by_cases hp : p.1 = k
      · simp [hp, h]
      · simp [hp]
  · rw [List.filter_cons_of_neg (by simp [h])]

theorem filter_erase {keep : K → Bool} (h : keep k = false) (m : List (K × V)) :
    (erase k m).filter (fun p => keep p.1) = m.filter fun p => keep p.1 := by
  rw [erase, List.filter_filter]
  apply List.filter_congr
  intro p _
  by_cases hp : p.1 = k
  · simp [hp, h]
  · simp [hp]

end Foundation.OrderedMap
