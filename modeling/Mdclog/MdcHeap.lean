import Mdclog.Foundation.LinkedList
import Mdclog.MdcList

/-! The MDC list of a thread in the heap: its representation invariant and what
linking and unlinking do to it. -/
namespace Mdclog.MdcHeap
open Foundation.HeapProgram Foundation.LinkedList CString Escape MdcList

/-! Fields of the entries in a heap. -/

def fieldAt (read : Mdc → Pointer) (heap : Heap Block) (a : Addr) : Option Pointer :=
  ((heap a).bind Block.asMdc).map read

abbrev nextAt := fieldAt Mdc.next

abbrev prevAt := fieldAt Mdc.prev

theorem fieldAt_eq_some {read : Mdc → Pointer} {heap : Heap Block} {a : Addr} {value : Pointer} :
    fieldAt read heap a = some value ↔ ∃ mdc, heap a = some (.entry mdc) ∧ read mdc = value := by
  unfold fieldAt
  cases hblock : heap a with
  | none => simp
  | some block => cases block <;> simp [Block.asMdc]

theorem fieldAt_entry (read : Mdc → Pointer) {heap : Heap Block} {a : Addr} {mdc : Mdc}
    (h : heap a = some (.entry mdc)) : fieldAt read heap a = some (read mdc) :=
  fieldAt_eq_some.mpr ⟨mdc, h, rfl⟩

theorem fieldAt_update_entry (read : Mdc → Pointer) (heap : Heap Block) (a : Addr) (mdc : Mdc) :
    fieldAt read (Function.update heap a (some (.entry mdc))) =
      Function.update (fieldAt read heap) a (some (read mdc)) := by
  funext c
  by_cases hc : c = a
  · subst hc
    simp [fieldAt, Block.asMdc]
  · simp [fieldAt, hc]

/-- Writing other fields of an entry. -/
theorem fieldAt_update_same {read : Mdc → Pointer} {heap : Heap Block} {a : Addr} {old new : Mdc}
    (hlive : heap a = some (.entry old)) (hsame : read new = read old) :
    fieldAt read (Function.update heap a (some (.entry new))) = fieldAt read heap := by
  rw [fieldAt_update_entry, hsame, ← fieldAt_entry read hlive, Function.update_eq_self]

/-- Writing a block that is no entry, and stays none. -/
theorem fieldAt_update_other {read : Mdc → Pointer} {heap : Heap Block} {a : Addr}
    {new : Option Block} (hold : (heap a).bind Block.asMdc = none)
    (hnew : new.bind Block.asMdc = none) :
    fieldAt read (Function.update heap a new) = fieldAt read heap := by
  funext c
  by_cases hc : c = a
  · subst hc
    simp [fieldAt, hold, hnew]
  · simp [fieldAt, hc]

/-! The step invariant: what hangs on the slot is a list of live entries. -/

/-- The nodes of a list as its `next` pointers give them. -/
def Nodes (heap : Heap Block) (list : Addr) (addrs : List Addr) : Prop :=
  heap list = some (.list addrs.head?) ∧ Forward (nextAt heap) addrs.head? addrs

def Listed (s : Memory Block) : Prop :=
  ∀ list, s.slot = some list → ∃ addrs, Nodes s.heap list addrs

theorem Nodes.listed {s : Memory Block} {list : Addr} {addrs : List Addr}
    (h : Nodes s.heap list addrs) (hslot : ∀ p, s.slot = some p → p = list) : Listed s := by
  intro p hp
  rw [hslot p hp]
  exact ⟨addrs, h⟩

theorem Nodes.update {heap : Heap Block} {list a : Addr} {addrs : List Addr} {new : Option Block}
    (h : Nodes heap list addrs) (hlist : a ≠ list) (haddrs : a ∉ addrs) :
    Nodes (Function.update heap a new) list addrs := by
  refine ⟨by rw [Function.update_of_ne hlist.symm, h.1], h.2.congr fun c hc => ?_⟩
  have hne : c ≠ a := by
    rintro rfl
    exact haddrs hc
  simp [fieldAt, hne]

theorem Nodes.of_next {heap heap' : Heap Block} {list : Addr} {addrs : List Addr}
    (h : Nodes heap list addrs) (hlist : heap' list = heap list)
    (hnext : nextAt heap' = nextAt heap) : Nodes heap' list addrs :=
  ⟨hlist.trans h.1, hnext ▸ h.2⟩

/-! The list without its texts. -/

structure Node where
  addr : Addr
  key : Pointer
  value : Pointer

structure Spine (heap : Heap Block) (list : Addr) (nodes : List Node) : Prop where
  linked : Nodes heap list (nodes.map Node.addr)
  backward : Backward (prevAt heap) none (nodes.map Node.addr)
  fields : ∀ node ∈ nodes, fieldAt Mdc.key heap node.addr = some node.key ∧
    fieldAt Mdc.value heap node.addr = some node.value

theorem Spine.update {heap : Heap Block} {list a : Addr} {nodes : List Node} {new : Option Block}
    (h : Spine heap list nodes) (hlist : a ≠ list) (haddrs : a ∉ nodes.map Node.addr) :
    Spine (Function.update heap a new) list nodes := by
  have hother : ∀ (read : Mdc → Pointer), ∀ c ∈ nodes.map Node.addr,
      fieldAt read (Function.update heap a new) c = fieldAt read heap c := by
    intro read c hc
    have hne : c ≠ a := by
      rintro rfl
      exact haddrs hc
    simp [fieldAt, hne]
  refine ⟨h.linked.update hlist haddrs, h.backward.congr (hother _), fun node hnode => ?_⟩
  have hmem : node.addr ∈ nodes.map Node.addr := List.mem_map_of_mem hnode
  rw [hother _ _ hmem, hother _ _ hmem]
  exact h.fields node hnode

theorem Spine.entry {heap : Heap Block} {list : Addr} {nodes : List Node} {node : Node}
    (h : Spine heap list nodes) (hnode : node ∈ nodes) :
    ∃ mdc, heap node.addr = some (.entry mdc) ∧ mdc.key = node.key ∧ mdc.value = node.value := by
  obtain ⟨mdc, hmdc, hkey⟩ := fieldAt_eq_some.mp (h.fields node hnode).1
  have hvalue := (h.fields node hnode).2
  rw [fieldAt_entry _ hmdc, Option.some.injEq] at hvalue
  exact ⟨mdc, hmdc, hkey, hvalue⟩

theorem Spine.nodup {heap : Heap Block} {list : Addr} {nodes : List Node}
    (h : Spine heap list nodes) : (nodes.map Node.addr).Nodup := h.linked.2.nodup

/-- `mdc->value = ...` for an entry of the list. -/
theorem Spine.setValue {heap : Heap Block} {list : Addr} {front back : List Node} {node : Node}
    {mdc : Mdc} (value : Pointer) (h : Spine heap list (front ++ node :: back))
    (hlive : heap node.addr = some (.entry mdc)) :
    Spine (Function.update heap node.addr (some (.entry { mdc with value := value }))) list
      (front ++ { node with value := value } :: back) := by
  have haddrs : (front ++ { node with value := value } :: back).map Node.addr =
      (front ++ node :: back).map Node.addr := by simp
  have hnodup := h.nodup
  have hlist : list ≠ node.addr := by
    rintro rfl
    have := h.linked.1
    rw [hlive] at this
    simp at this
  have hne : ∀ other ∈ front ++ back, other.addr ≠ node.addr := by
    intro other hother heq
    rw [List.map_append, List.map_cons, List.nodup_middle, List.nodup_cons] at hnodup
    exact hnodup.1 (by rw [← heq, ← List.map_append]; exact List.mem_map_of_mem hother)
  set heap' := Function.update heap node.addr (some (.entry { mdc with value := value }))
  have hnext : nextAt heap' = nextAt heap := fieldAt_update_same hlive rfl
  have hprev : prevAt heap' = prevAt heap := fieldAt_update_same hlive rfl
  have hkey : fieldAt Mdc.key heap' = fieldAt Mdc.key heap := fieldAt_update_same hlive rfl
  have hvalue : fieldAt Mdc.value heap' = Function.update (fieldAt Mdc.value heap) node.addr
      (some value) := fieldAt_update_entry _ _ _ _
  refine ⟨?_, ?_, ?_⟩
  · rw [haddrs]
    refine ⟨?_, hnext ▸ h.linked.2⟩
    rw [← h.linked.1]
    exact Function.update_of_ne hlist _ _
  · rw [haddrs, hprev]
    exact h.backward
  · intro other hother
    rw [hkey, hvalue]
    have hkept : ∀ other ∈ front ++ back, fieldAt Mdc.key heap other.addr = some other.key ∧
        Function.update (fieldAt Mdc.value heap) node.addr (some value) other.addr =
          some other.value := by
      intro other hother
      rw [Function.update_of_ne (hne other hother)]
      apply h.fields other
      rw [List.mem_append] at hother
      rw [List.mem_append, List.mem_cons]
      tauto
    rw [List.mem_append, List.mem_cons] at hother
    rcases hother with hother | rfl | hother
    · exact hkept other (by simp [hother])
    · simpa using (h.fields node (by simp)).1
    · exact hkept other (by simp [hother])

/-! Rules for the accesses of `mdc.c`. -/

section rules
variable {fails : Prop} {inv : Memory Block → Prop} {s : Memory Block} {a : Addr}

theorem wp_listHead {post : Pointer → Memory Block → Prop} {head : Pointer} (hinv : inv s)
    (hlive : s.heap a = some (.list head)) (hpost : post head s) :
    WP fails inv post (listHead (some a)) s :=
  WP.load hinv hlive rfl hpost

theorem wp_field {post : Pointer → Memory Block → Prop} {read : Mdc → Pointer} {value : Pointer}
    (hinv : inv s) (hfield : fieldAt read s.heap a = some value) (hpost : post value s) :
    WP fails inv post (field (some a) read) s := by
  obtain ⟨mdc, hlive, rfl⟩ := fieldAt_eq_some.mp hfield
  exact WP.load hinv hlive rfl hpost

theorem wp_str {post : CStr → Memory Block → Prop} {text : CStr} (hinv : inv s)
    (hlive : s.heap a = some (.text text)) (hpost : post text s) :
    WP fails inv post (str (some a)) s :=
  WP.load hinv hlive rfl hpost

theorem wp_setField {post : Unit → Memory Block → Prop} {mdc : Mdc} {write : Mdc → Mdc}
    (hinv : inv s) (hlive : s.heap a = some (.entry mdc))
    (hinv' : inv (s.set a (some (.entry (write mdc)))))
    (hpost : post () (s.set a (some (.entry (write mdc))))) :
    WP fails inv post (setField (some a) write) s :=
  WP.store hinv hlive rfl hinv' hpost

/-- A block is written as a whole. -/
theorem wp_fill {post : Unit → Memory Block → Prop} {old : Block} {fill : Block → Option Block}
    {new : Block} (hinv : inv s) (hlive : s.heap a = some old) (hfill : ∀ b, fill b = some new)
    (hinv' : inv (s.set a (some new))) (hpost : post () (s.set a (some new))) :
    WP fails inv post (store (some a) fill) s :=
  WP.store hinv hlive (hfill old) hinv' hpost

theorem wp_setHead {post : Unit → Memory Block → Prop} {old head : Pointer} (hinv : inv s)
    (hlive : s.heap a = some (.list old)) (hinv' : inv (s.set a (some (.list head))))
    (hpost : post () (s.set a (some (.list head)))) :
    WP fails inv post (setHead (some a) head) s :=
  WP.store hinv hlive rfl hinv' hpost

end rules

/-- Slot and log are kept, and so is the heap outside `touched`. -/
structure Touches (touched : List Addr) (s s' : Memory Block) : Prop where
  slot : s'.slot = s.slot
  freed : s'.freed = s.freed
  heap : ∀ a ∉ touched, s'.heap a = s.heap a

theorem Touches.refl (touched : List Addr) (s : Memory Block) : Touches touched s s :=
  ⟨rfl, rfl, fun _ _ => rfl⟩

theorem Touches.set {touched : List Addr} {s s' : Memory Block} {a : Addr} (block : Option Block)
    (h : Touches touched s s') (ha : a ∈ touched) : Touches touched s (s'.set a block) := by
  refine ⟨h.slot, h.freed, fun c hc => ?_⟩
  rw [Memory.set_heap_of_ne, h.heap c hc]
  rintro rfl
  exact hc ha

theorem Nodes.list_ne {heap : Heap Block} {list a : Addr} {addrs : List Addr} {mdc : Mdc}
    (h : Nodes heap list addrs) (hlive : heap a = some (.entry mdc)) : list ≠ a := by
  rintro rfl
  rw [h.1] at hlive
  simp at hlive

theorem Nodes.head {heap : Heap Block} {list : Addr} {addrs : List Addr}
    (h : Nodes heap list addrs) (read : Mdc → Pointer) (head : Pointer) :
    fieldAt read (Function.update heap list (some (.list head))) = fieldAt read heap :=
  fieldAt_update_other (by simp [h.1, Block.asMdc]) (by simp [Block.asMdc])

/-- `add_to_list` puts a fresh entry in front. -/
theorem addToList_spec {fails : Prop} {s : Memory Block} {list m : Addr} {nodes : List Node}
    {key value : Pointer} (hspine : Spine s.heap list nodes)
    (hslot : ∀ p, s.slot = some p → p = list)
    (hnew : m ∉ nodes.map Node.addr) (hlive : s.heap m = some (.entry ⟨none, none, key, value⟩)) :
    WP fails Listed (fun _ s' => Touches (list :: m :: nodes.map Node.addr) s s' ∧
      Spine s'.heap list (⟨m, key, value⟩ :: nodes)) (addToList (some m) (some list)) s := by
  have hlisted := hspine.linked.listed hslot
  have hm := hspine.linked.list_ne hlive
  unfold addToList
  apply WP.bind
  apply wp_listHead hlisted hspine.linked.1
  cases nodes with
  | nil =>
    have hspine' : Spine (s.set list (some (.list (some m)))).heap list [⟨m, key, value⟩] := by
      have hfields : ∀ read, fieldAt read (s.set list (some (.list (some m)))).heap m =
          some (read ⟨none, none, key, value⟩) := fun read =>
        (congrFun (hspine.linked.head read _) m).trans (fieldAt_entry read hlive)
      exact ⟨⟨by simp, rfl, none, hfields _, rfl⟩, ⟨hfields _, trivial⟩,
        by simpa using ⟨hfields _, hfields _⟩⟩
    exact wp_setHead hlisted hspine.linked.1 (hspine'.linked.listed hslot)
      ⟨(Touches.refl _ s).set _ (by simp), hspine'⟩
  | cons node nodes =>
    obtain ⟨mdc, hmdc, -, -⟩ := hspine.entry (show node ∈ node :: nodes by simp)
    have hnode := hspine.linked.list_ne hmdc
    have hne : m ≠ node.addr := fun h => hnew (by simp [h])
    -- the new entry points to the old head
    set s₁ := s.set m (some (.entry ⟨none, some node.addr, key, value⟩)) with hs₁
    have hlinked₁ : Nodes s₁.heap list ((node :: nodes).map Node.addr) :=
      hspine.linked.update hm.symm hnew
    have hmdc₁ : s₁.heap node.addr = some (.entry mdc) :=
      (s.set_heap_of_ne _ hne.symm).trans hmdc
    have hnext₁ : nextAt s₁.heap = Function.update (nextAt s.heap) m (some (some node.addr)) :=
      fieldAt_update_entry _ _ _ _
    have hsame₁ : ∀ read, read ⟨none, some node.addr, key, value⟩ = read ⟨none, none, key, value⟩ →
        fieldAt read s₁.heap = fieldAt read s.heap := fun _ h => fieldAt_update_same hlive h
    -- the old head points back to it
    set s₂ := s₁.set node.addr (some (.entry { mdc with prev := some m })) with hs₂
    have hsame₂ : ∀ read, read { mdc with prev := some m } = read mdc →
        fieldAt read s₂.heap = fieldAt read s₁.heap := fun _ h => fieldAt_update_same hmdc₁ h
    have hlinked₂ : Nodes s₂.heap list ((node :: nodes).map Node.addr) :=
      hlinked₁.of_next (s₁.set_heap_of_ne _ hnode) (hsame₂ _ rfl)
    have hprev₂ : prevAt s₂.heap = assign (prevAt s.heap) (some node.addr) (some m) :=
      (fieldAt_update_entry _ _ _ _).trans (by rw [hsame₁ Mdc.prev rfl, assign])
    -- and the list starts with it
    set s₃ := s₂.set list (some (.list (some m))) with hs₃
    have hsame₃ : ∀ read, fieldAt read s₃.heap = fieldAt read s₂.heap := fun read =>
      hlinked₂.head read _
    have hspine₃ : Spine s₃.heap list (⟨m, key, value⟩ :: node :: nodes) := by
      refine ⟨⟨by simp [hs₃], ?_⟩, ?_, ?_⟩
      · rw [nextAt, hsame₃, hsame₂ _ rfl, ← nextAt, hnext₁]
        refine Forward.push (hspine.linked.2.congr fun c hc => ?_) (by simp)
        apply Function.update_of_ne
        rintro rfl
        exact hnew hc
      · rw [prevAt, hsame₃, ← prevAt, hprev₂]
        exact hspine.backward.push (fieldAt_entry _ hlive) hspine.nodup hnew
      · intro other hother
        rw [hsame₃, hsame₃, hsame₂ _ rfl, hsame₂ _ rfl, hsame₁ _ rfl, hsame₁ _ rfl]
        rcases List.mem_cons.mp hother with rfl | hother
        · exact ⟨fieldAt_entry _ hlive, fieldAt_entry _ hlive⟩
        · exact hspine.fields other hother
    have htouches : Touches (list :: m :: (node :: nodes).map Node.addr) s s₃ :=
      (((Touches.refl _ s).set _ (by simp)).set _ (by simp)).set _ (by simp)
    apply WP.bind
    apply wp_setField hlisted hlive (hlinked₁.listed hslot)
    apply WP.bind
    apply wp_setField (hlinked₁.listed hslot) hmdc₁ (hlinked₂.listed hslot)
    exact wp_setHead (hlinked₂.listed hslot) hlinked₂.1 (hspine₃.linked.listed hslot)
      ⟨htouches, hspine₃⟩

/-! `rm_from_list`, with the entry at `node.addr` between `front` and `back`. -/

section unlink
variable {fails : Prop} {s : Memory Block} {list : Addr} {front back : List Node} {node : Node}

theorem Spine.next_eq (h : Spine s.heap list (front ++ node :: back)) :
    nextAt s.heap node.addr = some (back.map Node.addr).head? := by
  have hforward := h.linked.2
  rw [List.map_append, List.map_cons] at hforward
  exact hforward.next_middle

theorem Spine.prev_eq (h : Spine s.heap list (front ++ node :: back)) :
    prevAt s.heap node.addr = some (front.map Node.addr).getLast? := by
  have hbackward := h.backward
  rw [List.map_append, List.map_cons] at hbackward
  simpa using hbackward.prev_middle

theorem Spine.nodup_middle (h : Spine s.heap list (front ++ node :: back)) :
    node.addr ∉ front.map Node.addr ++ back.map Node.addr ∧
      (front.map Node.addr ++ back.map Node.addr).Nodup := by
  have hnodup := h.nodup
  rw [List.map_append, List.map_cons, List.nodup_middle, List.nodup_cons] at hnodup
  exact hnodup

/-- The state between the first two tests and the third: forward the entry is
out of the list, backward it still is in. -/
structure HalfUnlinked (s : Memory Block) (list : Addr) (front back : List Node) (node : Node)
    (s' : Memory Block) : Prop where
  touches : Touches (list :: front.map Node.addr) s s'
  linked : Nodes s'.heap list (front.map Node.addr ++ back.map Node.addr)
  fields : ∀ read : Mdc → Pointer, (∀ mdc q, read { mdc with next := q } = read mdc) →
    fieldAt read s'.heap = fieldAt read s.heap
  next : nextAt s'.heap node.addr = some (back.map Node.addr).head?

/-- The entry is the first one. -/
theorem unlinkHead_first (hspine : Spine s.heap list (node :: back))
    (hslot : ∀ p, s.slot = some p → p = list) :
    WP fails Listed (fun _ s' => WP fails Listed
        (fun _ s' => HalfUnlinked s list [] back node s') (unlinkPrev (some node.addr)) s')
      (unlinkHead (some node.addr) (some list)) s := by
  have hlisted := hspine.linked.listed hslot
  have hnext := Spine.next_eq (show Spine s.heap list ([] ++ node :: back) from hspine)
  set s₁ := s.set list (some (.list (back.map Node.addr).head?)) with hs₁
  have hsame : ∀ read, fieldAt read s₁.heap = fieldAt read s.heap := fun read =>
    hspine.linked.head read _
  have hhalf : HalfUnlinked s list [] back node s₁ := by
    refine ⟨(Touches.refl _ s).set _ (by simp), ⟨by simp [hs₁], ?_⟩, fun read _ => hsame read, ?_⟩
    · obtain ⟨-, q, hq, hrest⟩ := hspine.linked.2
      rw [nextAt, hsame]
      rw [hnext, Option.some.injEq] at hq
      rw [← hq] at hrest
      exact hrest
    · rw [nextAt, hsame]
      exact hnext
  have hlisted₁ := hhalf.linked.listed hslot
  unfold unlinkHead
  apply WP.bind
  apply wp_listHead hlisted hspine.linked.1
  rw [List.map_cons, List.head?_cons, if_pos rfl]
  apply WP.bind
  apply wp_field hlisted hnext
  apply wp_setHead hlisted hspine.linked.1 hlisted₁
  unfold unlinkPrev
  apply WP.bind
  exact wp_field hlisted₁ ((congrFun (hsame _) _).trans hspine.backward.1)
    (WP.pure hlisted₁ hhalf)

/-- The entry has another one, at `before.addr`, in front of it. -/
theorem unlinkHead_later {before : Node}
    (hspine : Spine s.heap list (front ++ before :: node :: back))
    (hslot : ∀ p, s.slot = some p → p = list) :
    WP fails Listed (fun _ s' => WP fails Listed
        (fun _ s' => HalfUnlinked s list (front ++ [before]) back node s')
        (unlinkPrev (some node.addr)) s')
      (unlinkHead (some node.addr) (some list)) s := by
  have hlisted := hspine.linked.listed hslot
  have hspine' : Spine s.heap list ((front ++ [before]) ++ node :: back) := by simpa using hspine
  have hnext := hspine'.next_eq
  have hprev : prevAt s.heap node.addr = some (some before.addr) := by
    simpa using hspine'.prev_eq
  have hnodup := hspine'.nodup_middle.1
  obtain ⟨mdc, hmdc, -, -⟩ := hspine.entry (show before ∈ front ++ before :: node :: back by simp)
  have hlist := hspine.linked.list_ne hmdc
  set s₁ := s.set before.addr
    (some (.entry { mdc with next := (back.map Node.addr).head? })) with hs₁
  have hnext₁ : nextAt s₁.heap = assign (nextAt s.heap) (some before.addr)
      (back.map Node.addr).head? := fieldAt_update_entry _ _ _ _
  have hhalf : HalfUnlinked s list (front ++ [before]) back node s₁ := by
    refine ⟨(Touches.refl _ s).set _ (by simp), ⟨?_, ?_⟩, fun read h => ?_, ?_⟩
    · rw [s.set_heap_of_ne _ hlist, hspine.linked.1]
      cases front <;> simp
    · have hforward := hspine.linked.2
      rw [List.map_append, List.map_cons, List.map_cons] at hforward
      have hhead : ((front ++ [before]).map Node.addr ++ back.map Node.addr).head? =
          (front.map Node.addr ++ before.addr :: node.addr :: back.map Node.addr).head? := by
        cases front <;> simp
      rw [hnext₁, hhead]
      simpa using hforward.unlink
    · exact fieldAt_update_same hmdc (h mdc _)
    · rw [hnext₁, assign, Function.update_of_ne, hnext]
      intro heq
      exact hnodup (by simp [heq])
  have hlisted₁ := hhalf.linked.listed hslot
  have hhead : ¬some node.addr = ((front ++ before :: node :: back).map Node.addr).head? := by
    intro heq
    cases front with
    | nil => simp_all
    | cons first front => simp_all
  unfold unlinkHead
  apply WP.bind
  apply wp_listHead hlisted hspine.linked.1
  rw [if_neg hhead]
  apply WP.pure hlisted
  unfold unlinkPrev
  apply WP.bind
  apply wp_field hlisted hprev
  apply WP.bind
  apply wp_field hlisted hnext
  exact wp_setField hlisted hmdc hlisted₁ hhalf

theorem unlinkNext_spec {s₀ : Memory Block} (hspine : Spine s₀.heap list (front ++ node :: back))
    (hhalf : HalfUnlinked s₀ list front back node s)
    (hslot : ∀ p, s₀.slot = some p → p = list) :
    WP fails Listed (fun _ s' =>
      Touches (list :: (front.map Node.addr ++ back.map Node.addr)) s₀ s' ∧
      Spine s'.heap list (front ++ back)) (unlinkNext (some node.addr)) s := by
  have hslot' : ∀ p, s.slot = some p → p = list := by
    rw [hhalf.touches.slot]
    exact hslot
  have hlisted := hhalf.linked.listed hslot'
  have hprev := (congrFun (hhalf.fields Mdc.prev fun _ _ => rfl) node.addr).trans hspine.prev_eq
  have hbackward := hspine.backward
  rw [List.map_append, List.map_cons] at hbackward
  have hunlinked := hbackward.unlink (by simpa using hspine.nodup)
  rw [Option.or_none] at hunlinked
  have hfields : ∀ other ∈ front ++ back, fieldAt Mdc.key s.heap other.addr = some other.key ∧
      fieldAt Mdc.value s.heap other.addr = some other.value := by
    intro other hother
    rw [hhalf.fields Mdc.key fun _ _ => rfl, hhalf.fields Mdc.value fun _ _ => rfl]
    apply hspine.fields other
    rw [List.mem_append] at hother
    rw [List.mem_append, List.mem_cons]
    tauto
  have htouches : Touches (list :: (front.map Node.addr ++ back.map Node.addr)) s₀ s :=
    ⟨hhalf.touches.slot, hhalf.touches.freed, fun a ha => hhalf.touches.heap a (by
      simp only [List.mem_cons, List.mem_append, not_or] at ha ⊢
      exact ⟨ha.1, ha.2.1⟩)⟩
  unfold unlinkNext
  apply WP.bind
  apply wp_field hlisted hhalf.next
  cases back with
  | nil =>
    apply WP.pure hlisted
    refine ⟨htouches, ⟨by simpa using hhalf.linked, ?_, hfields⟩⟩
    rw [prevAt, hhalf.fields Mdc.prev fun _ _ => rfl]
    simpa [assign] using hunlinked
  | cons after back =>
    obtain ⟨mdc, hmdc, -⟩ := fieldAt_eq_some.mp (hfields after (by simp)).1
    have hlist := hhalf.linked.list_ne hmdc
    set s₁ := s.set after.addr
      (some (.entry { mdc with prev := (front.map Node.addr).getLast? })) with hs₁
    have hsame : ∀ read, read { mdc with prev := (front.map Node.addr).getLast? } = read mdc →
        fieldAt read s₁.heap = fieldAt read s.heap := fun _ h => fieldAt_update_same hmdc h
    have hspine₁ : Spine s₁.heap list (front ++ after :: back) := by
      refine ⟨?_, ?_, ?_⟩
      · rw [List.map_append]
        exact hhalf.linked.of_next (s.set_heap_of_ne _ hlist) (hsame _ rfl)
      · have hprev₁ : prevAt s₁.heap = Function.update (prevAt s.heap) after.addr
            (some (front.map Node.addr).getLast?) := fieldAt_update_entry _ _ _ _
        rw [hprev₁, prevAt, hhalf.fields Mdc.prev fun _ _ => rfl, List.map_append]
        exact hunlinked
      · intro other hother
        rw [hsame _ rfl, hsame _ rfl]
        exact hfields other hother
    have hlisted₁ := hspine₁.linked.listed hslot'
    apply WP.bind
    apply wp_field hlisted hprev
    exact wp_setField hlisted hmdc hlisted₁ ⟨htouches.set _ (by simp), hspine₁⟩

/-- Unlinking leaves the entry itself as it was. -/
theorem unlink_spec (hspine : Spine s.heap list (front ++ node :: back))
    (hslot : ∀ p, s.slot = some p → p = list) :
    WP fails Listed (fun _ s' =>
      Touches (list :: (front.map Node.addr ++ back.map Node.addr)) s s' ∧
      Spine s'.heap list (front ++ back)) (unlink (some node.addr) (some list)) s := by
  have hhalf : WP fails Listed (fun _ s' => WP fails Listed
      (fun _ s' => HalfUnlinked s list front back node s') (unlinkPrev (some node.addr)) s')
      (unlinkHead (some node.addr) (some list)) s := by
    rcases front.eq_nil_or_concat with rfl | ⟨front, before, rfl⟩
    · exact unlinkHead_first hspine hslot
    · rw [List.concat_eq_append] at hspine ⊢
      exact unlinkHead_later (by simpa using hspine) hslot
  unfold unlink
  apply WP.bind
  refine hhalf.post fun _ s₁ _ hprev => WP.bind (hprev.post fun _ s₂ _ hunlinked => ?_)
  exact unlinkNext_spec hspine hunlinked hslot

end unlink

end Mdclog.MdcHeap
