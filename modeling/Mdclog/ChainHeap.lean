import Mdclog.Api
import Mdclog.FailedAdd
import Mdclog.MdcRefinement

/-! The MDC list of a thread when any allocation may fail: every function of `mdc.c`
still ends without a fault, and what it leaves is the list as `mdclog.c` sees it. -/
namespace Mdclog.ChainHeap
open Foundation.HeapProgram Foundation.LinkedList Foundation.OrderedMap
open CString Escape MdcList MdcHeap MdcStore MdcSpec FailedAdd
open Api (Chain)

/-- The walk from `p` reads `pairs` and then stands at `q`. -/
def Walk (heap : Heap Block) : Pointer → List (CStr × CStr) → Pointer → Prop
  | p, [], q => p = q
  | p, pair :: pairs, q => ∃ a next, p = some a ∧ pairAt heap a = some pair ∧
      nextAt heap a = some next ∧ Walk heap next pairs q

/-- The walk over the list at `list` reads `pairs` and runs into a freed entry. -/
def Dangles (heap : Heap Block) (list : Addr) (pairs : List (CStr × CStr)) : Prop :=
  ∃ head dead, heap list = some (.list head) ∧ Walk heap head pairs (some dead) ∧
    heap dead = none

/-- The memory of a thread stands for its list. `frame` is the heap without the
blocks of the list. -/
inductive Stands (s : Memory Block) (frame : Heap Block) : Option Chain → Prop
  | absent (hslot : s.slot = none) (hheap : s.heap = frame) : Stands s frame none
  | whole {list : Addr} {cells : List Cell} {store : Store} (hslot : s.slot = some list)
      (hown : Owns s.heap list cells frame) (hpairs : cells.map Cell.pair = store.pairs) :
      Stands s frame (some ⟨store, false⟩)
  | broken {list : Addr} {store : Store} (hslot : s.slot = some list)
      (hdangles : Dangles s.heap list store.pairs) : Stands s frame (some ⟨store, true⟩)

/-- The list a thread has, or gets at its first call. -/
def storeOf (list : Option Chain) : Store := (list.map Chain.store).getD .empty

theorem Stands.slot_none (h : Stands s frame none) : s.slot = none := by
  cases h
  assumption

theorem Stands.holds (h : Stands s frame list) (hwhole : ∀ chain ∈ list, chain.broken = false) :
    ∃ cells, Holds s cells frame ∧ cells.map Cell.pair = (storeOf list).pairs ∧
      (s.slot = none → list = none) := by
  cases h with
  | absent hslot hheap => exact ⟨[], .inl ⟨hslot, rfl, hheap⟩, rfl, fun _ => rfl⟩
  | whole hslot hown hpairs =>
    exact ⟨_, .of_owns hslot hown, hpairs, fun hnone => by rw [hslot] at hnone; cases hnone⟩
  | broken hslot hdangles => cases hwhole _ rfl

theorem pairAt_same {heap heap' frame : Heap Block} {list : Addr} {cells : List Cell} {cell : Cell}
    (h : Owns heap list cells frame) (hcell : cell ∈ cells)
    (hsame : ∀ a ∈ cell.blocks, heap' a = heap a) :
    pairAt heap' cell.addr = some cell.pair := by
  rw [← pairAt_cell h hcell]
  obtain ⟨mdc, hmdc, hkey, hvalue⟩ := h.spine.entry (List.mem_map_of_mem hcell)
  have hentry : heap cell.addr = some (.entry mdc) := hmdc
  have haddr := hsame cell.addr (by simp [Cell.blocks])
  have hkeys := hsame cell.keyAddr (by simp [Cell.blocks, Cell.texts])
  have hvalues := hsame cell.valueAddr (by simp [Cell.blocks, Cell.texts])
  simp [pairAt, textAt, haddr, hentry, Block.asMdc, hkey, hvalue, Cell.node, hkeys, hvalues]

/-- A walk over entries whose blocks are untouched. -/
theorem walk_of_cells {heap heap' frame : Heap Block} {list : Addr} {front back : List Cell}
    (h : Owns heap list (front ++ back) frame)
    (hsame : ∀ cell ∈ front, ∀ a ∈ cell.blocks, heap' a = heap a) :
    Walk heap' (((front ++ back).map Cell.addr).head?) (front.map Cell.pair)
      ((back.map Cell.addr).head?) := by
  have hlinked := h.spine.linked.2
  rw [map_node_addr] at hlinked
  have hpairs : ∀ cell ∈ front, pairAt heap' cell.addr = some cell.pair := fun cell hcell =>
    pairAt_same h (List.mem_append_left _ hcell) (hsame cell hcell)
  clear h
  induction front with
  | nil => rfl
  | cons cell front ih =>
    obtain ⟨-, q, hq, hrest⟩ := hlinked
    have haddr : heap' cell.addr = heap cell.addr :=
      hsame cell (by simp) cell.addr (by simp [Cell.blocks])
    have hhead : q = ((front ++ back).map Cell.addr).head? := hrest.head
    subst hhead
    refine ⟨cell.addr, ((front ++ back).map Cell.addr).head?, rfl, hpairs cell (by simp), ?_, ?_⟩
    · rw [nextAt, fieldAt, haddr]
      exact hq
    · exact ih (fun other hother => hsame other (List.mem_cons_of_mem _ hother)) hrest
        fun other hother => hpairs other (List.mem_cons_of_mem _ hother)

/-! The functions end, whatever the allocator answers. -/

section ends
variable {s : Memory Block} {list m : Addr} {cells : List Cell} {frame : Heap Block} {mdc : Mdc}

theorem getList_ends (s : Memory Block) : Ends getList s := by
  unfold getList
  apply WP.bind
  apply WP.getSlot trivial
  cases s.slot with
  | some list => exact WP.pure trivial trivial
  | none =>
    apply WP.bind
    refine WP.malloc trivial (fun list hfresh => ⟨trivial, ?_⟩) fun _ => WP.pure trivial trivial
    apply WP.bind
    apply wp_fill trivial (s.set_heap_self list _) (fun _ => rfl) trivial
    apply WP.bind
    exact WP.trySlot trivial trivial (WP.pure trivial trivial) fun _ => WP.pure trivial trivial

theorem escapeAndCopy_ends (text : CStr) (s : Memory Block) : Ends (escapeAndCopy text) s := by
  unfold escapeAndCopy
  apply WP.bind
  refine WP.malloc trivial (fun a hfresh => ⟨trivial, ?_⟩) fun _ => WP.pure trivial trivial
  apply WP.bind
  apply wp_fill trivial (s.set_heap_self a _)
    (fun _ => by rw [escapedCopy_eq, Option.map_some]) trivial
  exact WP.pure trivial trivial

theorem allocEntry_ends (s : Memory Block) : Ends allocEntry s := by
  unfold allocEntry
  apply WP.bind
  refine WP.malloc trivial (fun m hfresh => ⟨trivial, ?_⟩) fun _ => WP.pure trivial trivial
  apply WP.bind
  exact wp_fill trivial (s.set_heap_self m _) (fun _ => rfl) trivial (WP.pure trivial trivial)

/-- `free(p)` of a block that is live, or of the null pointer. -/
theorem free_ends {p : Pointer} (h : ∀ a, p = some a → (s.heap a).isSome) : Ends (free p) s := by
  cases p with
  | none =>
    refine .act trivial (fun _ _ => rfl) fun choice result s' _ hexec => ?_
    exact WP.pure trivial trivial
  | some a =>
    obtain ⟨block, hblock⟩ := Option.isSome_iff_exists.mp (h a rfl)
    exact WP.free trivial hblock trivial trivial

theorem mdcDestroy_ends (hmdc : s.heap m = some (.entry mdc))
    (hkey : ∀ a, mdc.key = some a → a ≠ m ∧ (s.heap a).isSome)
    (hvalue : ∀ a, mdc.value = some a → a ≠ m ∧ mdc.key ≠ some a ∧ (s.heap a).isSome) :
    Ends (mdcDestroy (some m)) s := by
  have hread : ∀ {s' : Memory Block} (read : Mdc → Pointer), s'.heap m = s.heap m →
      fieldAt read s'.heap m = some (read mdc) := fun read h => fieldAt_entry _ (h.trans hmdc)
  unfold mdcDestroy
  apply WP.bind
  apply wp_field trivial (hread Mdc.key rfl)
  refine Ends.bind (free_ends fun a ha => (hkey a ha).2) ?_
  intro _ _ s₁ hfree
  obtain ⟨-, -, -, hsame⟩ := Runs.of_free hfree
  have hm : s₁.heap m = s.heap m := hsame m fun heq => (hkey m heq).1 rfl
  apply WP.bind
  apply wp_field trivial (hread Mdc.value hm)
  refine Ends.bind (free_ends fun a ha => ?_) ?_
  · obtain ⟨-, hother, hlive⟩ := hvalue a ha
    rwa [hsame a hother]
  intro _ _ s₂ hfree₂
  obtain ⟨-, -, -, hsame₂⟩ := Runs.of_free hfree₂
  refine free_ends fun a ha => ?_
  cases ha
  rw [hsame₂ m fun heq => (hvalue m heq).1 rfl, hm, hmdc]
  rfl

end ends

/-! `mdclog_internal_put_mdc`, to its end and back to what its allocations got. -/

section put
variable {s s' : Memory Block} {answers : List Bool} {list m : Addr} {cells : List Cell}
  {frame : Heap Block} {mdc : Mdc} {value : CStr} {r : Int}

theorem escapeAndCopy_outcome {text : CStr} {p : Pointer}
    (hrun : Runs (escapeAndCopy text) s answers p s') :
    answers = [p.isSome] ∧ s'.slot = s.slot ∧ (∀ a, p = some a → s.heap a = none) ∧
      (∀ a, p = some a → (s'.heap a).isSome) ∧ ∀ a, p ≠ some a → s'.heap a = s.heap a := by
  obtain ⟨_, _, s₁, _, rfl, hmalloc, hrun₁⟩ := Runs.of_bind hrun
  rcases Runs.of_malloc hmalloc with ⟨rfl, rfl, rfl⟩ | ⟨a, hfresh, rfl, rfl, rfl⟩
  · obtain ⟨rfl, rfl, rfl⟩ := Runs.of_pure hrun₁
    exact ⟨rfl, rfl, nofun, nofun, fun _ _ => rfl⟩
  · obtain ⟨_, _, s₂, _, rfl, hstore, hrun₂⟩ := Runs.of_bind hrun₁
    obtain ⟨rfl, _, _, block, ⟨⟩, -, -, rfl⟩ := Runs.of_store hstore
    obtain ⟨rfl, rfl, rfl⟩ := Runs.of_pure hrun₂
    refine ⟨rfl, rfl, ?_, ?_, ?_⟩
    · rintro _ ⟨rfl⟩
      exact hfresh
    · rintro _ ⟨rfl⟩
      rw [Memory.set_heap_self]
      rfl
    · intro c hc
      have hne : c ≠ a := fun heq => hc (congrArg some heq.symm)
      rw [Memory.set_heap_of_ne _ _ hne, Memory.set_heap_of_ne _ _ hne]

theorem setValue_ends (value : CStr) (hmdc : s.heap m = some (.entry mdc))
    (hkey : ∀ a, mdc.key = some a → a ≠ m ∧ (s.heap a).isSome) :
    Ends (setValue (some m) value) s := by
  unfold setValue
  refine Ends.bind (escapeAndCopy_ends value s) ?_
  intro _ copy s₁ hcopy
  obtain ⟨-, -, hfresh, hlive, hsame⟩ := escapeAndCopy_outcome hcopy
  -- a copy takes a block that was dead
  have hapart : ∀ c, (s.heap c).isSome → copy ≠ some c := by
    rintro c hc rfl
    rw [hfresh c rfl] at hc
    cases hc
  have hmdc₁ : s₁.heap m = some (.entry mdc) :=
    (hsame m (hapart m (by rw [hmdc]; rfl))).trans hmdc
  set s₂ := s₁.set m (some (.entry { mdc with value := copy })) with hs₂
  have hmdc₂ : s₂.heap m = some (.entry { mdc with value := copy }) := s₁.set_heap_self _ _
  apply WP.bind
  apply wp_setField trivial hmdc₁ trivial
  apply WP.bind
  apply wp_field trivial (fieldAt_entry _ hmdc₂)
  apply WP.bind
  apply wp_field trivial (fieldAt_entry _ hmdc₂)
  split
  · exact WP.pure trivial trivial
  · refine Ends.bind (mdcDestroy_ends hmdc₂ ?_ ?_) fun _ _ _ _ => WP.pure trivial trivial
    · intro a ha
      obtain ⟨hne, halive⟩ := hkey a ha
      refine ⟨hne, ?_⟩
      rw [hs₂, Memory.set_heap_of_ne _ _ hne, hsame a (hapart a halive)]
      exact halive
    · intro a ha
      have hne : a ≠ m := by
        rintro rfl
        exact hapart a (by rw [hmdc]; rfl) ha
      refine ⟨hne, fun heq => hapart a (hkey a heq).2 ha, ?_⟩
      rw [hs₂, Memory.set_heap_of_ne _ _ hne]
      exact hlive a ha

/-- Without the key or without the copy the entry is destroyed, and nothing else
that was live changes: whatever points to the entry still does. -/
theorem setValue_outcome (hmdc : s.heap m = some (.entry mdc))
    (hrun : Runs (setValue (some m) value) s answers r s') :
    ∃ copied, answers = [copied] ∧ s'.slot = s.slot ∧
      ((mdc.key.isSome && copied) = true → r = 0) ∧
      ((mdc.key.isSome && copied) = false → r = -1 ∧ s'.heap m = none ∧
        ∀ a, a ≠ m → mdc.key ≠ some a → s.heap a ≠ none → s'.heap a = s.heap a) := by
  obtain ⟨_, copy, s₁, _, rfl, hcopy, hrun₁⟩ := Runs.of_bind hrun
  obtain ⟨rfl, hslot₁, hfresh, -, hsame₁⟩ := escapeAndCopy_outcome hcopy
  have hmdc₁ : s₁.heap m = some (.entry mdc) := by
    rw [hsame₁, hmdc]
    intro heq
    rw [hfresh m heq] at hmdc
    cases hmdc
  obtain ⟨_, _, s₂, _, rfl, hset, hrun₂⟩ := Runs.of_bind hrun₁
  obtain ⟨rfl, rfl⟩ := setField_runs hmdc₁ hset
  set s₂ := s₁.set m (some (.entry { mdc with value := copy })) with hs₂
  have hmdc₂ : s₂.heap m = some (.entry { mdc with value := copy }) := s₁.set_heap_self _ _
  obtain ⟨_, _, s₃, _, rfl, hload, hrun₃⟩ := Runs.of_bind hrun₂
  obtain ⟨rfl, rfl, _, block, ⟨⟩, hblock, rfl⟩ := field_runs hload
  rw [hmdc₂, Option.some.injEq, Block.entry.injEq] at hblock
  subst hblock
  obtain ⟨_, _, s₄, _, rfl, hload', hrun₄⟩ := Runs.of_bind hrun₃
  obtain ⟨rfl, rfl, _, block, ⟨⟩, hblock, rfl⟩ := field_runs hload'
  rw [hmdc₂, Option.some.injEq, Block.entry.injEq] at hblock
  subst hblock
  refine ⟨copy.isSome, ?_⟩
  by_cases hboth : (mdc.key.isSome && copy.isSome) = true
  · rw [if_pos hboth] at hrun₄
    obtain ⟨rfl, rfl, rfl⟩ := Runs.of_pure hrun₄
    exact ⟨rfl, hslot₁, fun _ => rfl, fun hfalse => by rw [hboth] at hfalse; cases hfalse⟩
  · rw [if_neg hboth] at hrun₄
    obtain ⟨_, _, _, _, rfl, hdestroy, hrun₅⟩ := Runs.of_bind hrun₄
    obtain ⟨rfl, rfl, rfl⟩ := Runs.of_pure hrun₅
    obtain ⟨rfl, hslot₅, hdead, hsame₅⟩ := mdcDestroy_runs hmdc₂ hdestroy
    refine ⟨rfl, hslot₅.trans hslot₁, fun htrue => absurd htrue hboth, fun _ => ⟨rfl, hdead, ?_⟩⟩
    intro a hne hkey hlive
    have hcopied : copy ≠ some a := fun heq => hlive (hfresh a heq)
    rw [hsame₅ a hne hkey hcopied, hs₂, Memory.set_heap_of_ne _ _ hne, hsame₁ a hcopied]

theorem strdup_ends (text : CStr) (s : Memory Block) : Ends (strdup text) s :=
  WP.malloc trivial (fun _ _ => ⟨trivial, trivial⟩) fun _ => trivial

theorem strdup_live {text : CStr} {p : Pointer} (hrun : Runs (strdup text) s answers p s') :
    ∀ a, p = some a → (s'.heap a).isSome := by
  rcases Runs.of_malloc hrun with ⟨rfl, rfl, rfl⟩ | ⟨a, -, rfl, rfl, rfl⟩
  · nofun
  · rintro _ ⟨rfl⟩
    rw [Memory.set_heap_self]
    rfl

/-- A new key. The entry is the first of the list when it is destroyed. -/
theorem putNew_tries (key value : CStr) (hown : Owns s.heap list cells frame)
    (hslot : s.slot = some list) :
    WP True (fun _ => True) (fun r s' => r = 0 ∨ (r = -1 ∧ s' = s) ∨
        (r = -1 ∧ s'.slot = some list ∧ Dangles s'.heap list []))
      (do
        let mdc ← allocEntry
        match mdc with
        | none => return -1
        | some _ =>
            let name ← strdup key
            setField mdc fun mdc => { mdc with key := name }
            addToList mdc (some list)
            setValue mdc value) s := by
  apply WP.bind
  refine (allocEntry_ends s).with_runs.post ?_
  rintro p s₁ - ⟨-, answers, halloc⟩
  rcases allocEntry_runs halloc with ⟨-, rfl, rfl⟩ | ⟨m, hm, -, rfl, rfl⟩
  · exact WP.pure trivial (.inr (.inl ⟨rfl, rfl⟩))
  set s₁ := s.set m (some (.entry ⟨none, none, none, none⟩)) with hs₁
  have hout := hown.fresh hm
  have hown₁ : Owns s₁.heap list cells _ := hown.set_frame hout _
  have hm₁ : s₁.heap m = some (.entry ⟨none, none, none, none⟩) := s.set_heap_self m _
  apply WP.bind
  refine (strdup_ends key s₁).with_runs.post ?_
  rintro name s₂ - ⟨-, answers₂, hstrdup⟩
  obtain ⟨-, hslot₂, ⟨frame₂, hown₂⟩, hm₂, hname⟩ := strdup_runs hown₁ hm₁ hstrdup
  have hlive := strdup_live hstrdup
  set s₃ := s₂.set m (some (.entry ⟨none, none, name, none⟩)) with hs₃
  have hown₃ : Owns s₃.heap list cells _ := hown₂.set_frame hout _
  have hslot₃ : s₃.slot = some list := hslot₂.trans hslot
  apply WP.bind
  apply wp_setField trivial hm₂ trivial
  apply WP.bind
  have hnew : m ∉ (cells.map Cell.node).map Node.addr := by
    rw [map_node_addr]
    rw [mem_footprint] at hout
    tauto
  refine (addToList_spec hown₃.spine (fun p hp => by simpa [hslot₃] using hp.symm) hnew
    (s₂.set_heap_self m _)).mono (fun _ _ => trivial) ?_
  rintro - s₄ - ⟨htouches, hspine⟩
  rw [map_node_addr] at htouches
  obtain ⟨mdc, hmdc, hkey, -⟩ := hspine.entry
    (show (⟨m, name, none⟩ : Node) ∈ _ :: cells.map Cell.node by simp)
  have hkey' : mdc.key = name := hkey
  have hnamed : ∀ a, mdc.key = some a → a ≠ m ∧ (s₄.heap a).isSome := by
    intro a ha
    rw [hkey'] at ha
    have hapart := hname a ha
    rw [List.mem_cons, not_or] at hapart
    refine ⟨hapart.2.1, ?_⟩
    rw [htouches.heap a (by simp only [List.mem_cons, not_or]; exact hapart),
      hs₃, Memory.set_heap_of_ne _ _ hapart.2.1]
    exact hlive a ha
  refine (setValue_ends value hmdc hnamed).with_runs.post ?_
  rintro r s₅ - ⟨-, answers₅, hset⟩
  obtain ⟨copied, -, hslot₅, hdone, hfailed⟩ := setValue_outcome hmdc hset
  cases hboth : mdc.key.isSome && copied with
  | true => exact .inl (hdone hboth)
  | false =>
    obtain ⟨rfl, hdead, hsame⟩ := hfailed hboth
    have hlist : s₄.heap list = some (.list (some m)) := hspine.linked.1
    refine .inr (.inr ⟨rfl, hslot₅.trans (htouches.slot.trans hslot₃), some m, m, ?_, rfl, hdead⟩)
    rw [hsame list (hspine.linked.list_ne hmdc) ?_ (by rw [hlist]; nofun), hlist]
    intro heq
    rw [hkey'] at heq
    exact (hname list heq).1 rfl

/-- A known key. The old value is gone when the copy of the new one fails, and the
walk ends where the entry was. -/
theorem putOld_tries (value : CStr) {front back : List Cell} {cell : Cell}
    (hown : Owns s.heap list (front ++ cell :: back) frame) (hslot : s.slot = some list) :
    WP True (fun _ => True) (fun r s' => r = 0 ∨
        (r = -1 ∧ s'.slot = some list ∧ Dangles s'.heap list (front.map Cell.pair)))
      (do
        free (← field (some cell.addr) Mdc.value)
        setValue (some cell.addr) value) s := by
  have hmem : cell ∈ front ++ cell :: back := by simp
  have htexts := hown.texts cell hmem
  have hspine : Spine s.heap list (front.map Cell.node ++ cell.node :: back.map Cell.node) := by
    simpa using hown.spine
  obtain ⟨mdc, hmdc, hkey, hvalue⟩ := hspine.entry (show cell.node ∈ _ by simp)
  have hmdc' : s.heap cell.addr = some (.entry mdc) := hmdc
  have hapart : cell.addr ≠ cell.keyAddr ∧ cell.addr ≠ cell.valueAddr := by
    constructor
    · intro heq
      rw [heq, htexts.1] at hmdc'
      cases hmdc'
    · intro heq
      rw [heq, htexts.2] at hmdc'
      cases hmdc'
  have hne : cell.keyAddr ≠ cell.valueAddr := by
    have hdistinct := hown.distinct
    rw [List.flatMap_append, List.flatMap_cons] at hdistinct
    simpa [Cell.texts] using ((List.nodup_append.mp hdistinct).2.1.of_append_left)
  set s₁ := s.release cell.valueAddr with hs₁
  have hmdc₁ : s₁.heap cell.addr = some (.entry mdc) :=
    (s.release_heap_of_ne hapart.2).trans hmdc'
  apply WP.bind
  apply wp_field trivial (hspine.fields cell.node (by simp)).2
  apply WP.bind
  apply WP.free trivial htexts.2 trivial
  have hnamed : ∀ a, mdc.key = some a → a ≠ cell.addr ∧ (s₁.heap a).isSome := by
    intro a ha
    have hka : cell.keyAddr = a := by
      rw [hkey] at ha
      exact Option.some.inj ha
    rw [← hka, hs₁, s.release_heap_of_ne hne, htexts.1]
    exact ⟨hapart.1.symm, rfl⟩
  refine (setValue_ends value hmdc₁ hnamed).with_runs.post ?_
  rintro r s₂ - ⟨-, answers, hset⟩
  obtain ⟨copied, -, hslot₂, hdone, hfailed⟩ := setValue_outcome hmdc₁ hset
  cases hboth : mdc.key.isSome && copied with
  | true => exact .inl (hdone hboth)
  | false =>
    obtain ⟨rfl, hdead, hsame⟩ := hfailed hboth
    -- only the blocks of `cell` are gone
    have hkept : ∀ a, a ∉ cell.blocks → s.heap a ≠ none → s₂.heap a = s.heap a := by
      intro a ha hlive
      simp only [Cell.blocks, Cell.texts, List.mem_cons, List.not_mem_nil, or_false,
        not_or] at ha
      have hheap₁ : s₁.heap a = s.heap a := s.release_heap_of_ne ha.2.2
      rw [hsame a ha.1 ?_ (by rwa [hheap₁]), hheap₁]
      rw [hkey]
      intro heq
      exact ha.2.1 (Option.some.inj heq).symm
    refine .inr ⟨rfl, hslot₂.trans hslot, ((front ++ cell :: back).map Cell.addr).head?,
      cell.addr, ?_, ?_, hdead⟩
    · rw [hkept list ?_ (by simp [hown.spine.linked.1]), hown.spine.linked.1, map_node_addr]
      intro hblock
      refine (List.nodup_cons.mp hown.footprint_nodup).1 ?_
      exact List.mem_flatMap.mpr ⟨cell, hmem, hblock⟩
    · refine walk_of_cells hown fun other hother a ha => hkept a ?_ fun hnone => ?_
      · have hnodup := (List.nodup_cons.mp hown.footprint_nodup).2
        rw [List.flatMap_append, List.flatMap_cons, List.nodup_append] at hnodup
        intro hblock
        exact hnodup.2.2 a (List.mem_flatMap.mpr ⟨other, hother, ha⟩) a
          (List.mem_append_left _ hblock) rfl
      · refine hown.fresh hnone (List.mem_cons_of_mem _ ?_)
        exact List.mem_flatMap.mpr ⟨other, List.mem_append_left _ hother, ha⟩

end put

end Mdclog.ChainHeap
