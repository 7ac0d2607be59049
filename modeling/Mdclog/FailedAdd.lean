import Mdclog.Foundation.HeapTrace
import Mdclog.MdcSpec

/-! `mdclog_internal_put_mdc` under every pattern of allocation failures. -/
namespace Mdclog.FailedAdd
open Foundation.HeapProgram Foundation.LinkedList Foundation.OrderedMap
open CString Escape MdcList MdcHeap MdcSpec

def textAt (heap : Heap Block) (p : Pointer) : Option CStr := (p.bind heap).bind Block.str

/-- Key and value of a live entry. -/
def pairAt (heap : Heap Block) (a : Addr) : Option (CStr × CStr) := do
  let mdc ← (heap a).bind Block.asMdc
  let key ← textAt heap mdc.key
  let value ← textAt heap mdc.value
  return (key, value)

/-- A walk from the head of the thread's list meets live entries only and reads
`pairs` from them. -/
def Reads (s : Memory Block) (pairs : List (CStr × CStr)) : Prop :=
  (s.slot = none ∧ pairs = []) ∨ ∃ list addrs, s.slot = some list ∧ Nodes s.heap list addrs ∧
    addrs.map (pairAt s.heap) = pairs.map some

theorem pairAt_cell {heap frame : Heap Block} {list : Addr} {cells : List Cell} {cell : Cell}
    (h : Owns heap list cells frame) (hcell : cell ∈ cells) :
    pairAt heap cell.addr = some cell.pair := by
  obtain ⟨mdc, hmdc, hkey, hvalue⟩ := h.spine.entry (List.mem_map_of_mem hcell)
  have hentry : heap cell.addr = some (.entry mdc) := hmdc
  have htexts := h.texts cell hcell
  have hkey' : textAt heap mdc.key = some cell.key := by
    simp [textAt, hkey, Cell.node, htexts.1, Block.str]
  have hvalue' : textAt heap mdc.value = some cell.value := by
    simp [textAt, hvalue, Cell.node, htexts.2, Block.str]
  simp [pairAt, hentry, Block.asMdc, hkey', hvalue', Cell.pair]

theorem reads_of_owns {s : Memory Block} {frame : Heap Block} {list : Addr} {cells : List Cell}
    (h : Owns s.heap list cells frame) (hslot : s.slot = some list) :
    Reads s (cells.map Cell.pair) := by
  refine .inr ⟨list, cells.map Cell.addr, hslot, map_node_addr cells ▸ h.spine.linked, ?_⟩
  rw [List.map_map, List.map_map]
  exact List.map_congr_left fun cell hcell => pairAt_cell h hcell

/-- A dead entry on the way leaves no walk at all. -/
theorem not_reads {s s' : Memory Block} {list a : Addr} {front back : List Addr}
    (h : Nodes s.heap list (front ++ a :: back)) (hslot : s'.slot = some list)
    (hlist : s'.heap list = s.heap list) (hfront : ∀ c ∈ front, s'.heap c = s.heap c)
    (hdead : s'.heap a = none) (pairs : List (CStr × CStr)) : ¬Reads s' pairs := by
  rintro (⟨hnone, -⟩ | ⟨list', addrs, hslot', hnodes, -⟩)
  · rw [hslot] at hnone
    cases hnone
  · rw [hslot, Option.some.injEq] at hslot'
    subst hslot'
    have hhead : addrs.head? = (front ++ a :: back).head? := by
      have hlist' := hnodes.1
      rw [hlist, h.1, Option.some.injEq, Block.list.injEq] at hlist'
      exact hlist'.symm
    have hwalk := hnodes.2
    rw [hhead] at hwalk
    refine h.2.broken (fun c hc => ?_) ?_ hwalk
    · simp [fieldAt, hfront c hc]
    · simp [fieldAt, hdead]

/-! The parts of the call, run by run. -/

section parts
variable {s s' : Memory Block} {answers : List Bool} {list : Addr} {cells : List Cell}
  {frame : Heap Block}

/-- `get_list` fails without memory for the list or, with a list that nobody has then,
for the slot. -/
theorem getList_runs {p : Pointer} (h : Holds s cells frame) (hrun : Runs getList s answers p s') :
    (s.slot = none ∧ p = none ∧ (answers = [false] ∧ s' = s ∨
        answers = [true, false] ∧ ∃ a, s.heap a = none ∧ s' = s.set a (some (.list none)))) ∨
      ∃ list, p = some list ∧ s'.slot = some list ∧ Owns s'.heap list cells frame ∧
        answers = if s.slot = none then [true, true] else [] := by
  have hspec : false ∉ answers → ∃ list, p = some list ∧ s'.slot = some list ∧
      Owns s'.heap list cells frame := fun hok =>
    have ⟨list, hp, hslot, hown, _⟩ := (getList_spec h).runs_ok hrun hok
    ⟨list, hp, hslot, hown⟩
  have hanswers : (s.slot = none ∧ p = none ∧ (answers = [false] ∧ s' = s ∨
        answers = [true, false] ∧ ∃ a, s.heap a = none ∧ s' = s.set a (some (.list none)))) ∨
      answers = if s.slot = none then [true, true] else [] := by
    obtain ⟨_, _, s₁, _, rfl, hget, hrest⟩ := Runs.of_bind hrun
    obtain ⟨rfl, rfl, rfl⟩ := Runs.of_getSlot hget
    cases hslot : s₁.slot with
    | some list =>
      rw [hslot] at hrest
      obtain ⟨rfl, -, -⟩ := Runs.of_pure hrest
      exact .inr rfl
    | none =>
      rw [hslot] at hrest
      obtain ⟨_, _, s₂, _, rfl, hmalloc, hrest₂⟩ := Runs.of_bind hrest
      rcases Runs.of_malloc hmalloc with ⟨rfl, rfl, rfl⟩ | ⟨list, hfresh, rfl, rfl, rfl⟩
      · obtain ⟨rfl, rfl, rfl⟩ := Runs.of_pure hrest₂
        exact .inl ⟨rfl, rfl, .inl ⟨rfl, rfl⟩⟩
      · obtain ⟨_, _, _, _, rfl, hstore, hrest₃⟩ := Runs.of_bind hrest₂
        obtain ⟨rfl, a, _, _, ha, -, hfill, rfl⟩ := Runs.of_store hstore
        cases ha
        cases hfill
        obtain ⟨_, _, _, _, rfl, htry, hrest₄⟩ := Runs.of_bind hrest₃
        rcases Runs.of_trySlot htry with ⟨rfl, rfl, rfl⟩ | ⟨rfl, rfl, rfl⟩
        · obtain ⟨rfl, rfl, rfl⟩ := Runs.of_pure hrest₄
          exact .inl ⟨rfl, rfl, .inr ⟨rfl, list, hfresh, s₁.set_set list _ _⟩⟩
        · obtain ⟨rfl, -, -⟩ := Runs.of_pure hrest₄
          exact .inr rfl
  rcases hanswers with hfail | hanswers
  · exact .inl hfail
  · obtain ⟨list, hp, hslot, hown⟩ := hspec (by rw [hanswers]; split <;> simp)
    exact .inr ⟨list, hp, hslot, hown, hanswers⟩

theorem quiet_searchList (key : CStr) (list : Pointer) : Quiet (searchList key list) := by
  cases list with
  | none => exact Quiet.pure
  | some list =>
    refine Quiet.bind Quiet.load fun head => Quiet.loop fun mdc => ?_
    cases mdc with
    | none => exact Quiet.pure
    | some mdc =>
      refine Quiet.bind Quiet.load fun key => Quiet.bind Quiet.load fun name => ?_
      split
      · exact Quiet.pure
      · exact Quiet.bind Quiet.load fun next => Quiet.pure

theorem searchMdc_runs {key : CStr} {p : Pointer} (hown : Owns s.heap list cells frame)
    (hslot : s.slot = some list) (hrun : Runs (mdclogInternalSearchMdc key) s answers p s') :
    answers = [] ∧ s' = s ∧ p = (cells.find? fun cell => key = cell.key).map Cell.addr := by
  refine ⟨?_, (mdclogInternalSearchMdc_spec key hown hslot).runs hrun⟩
  obtain ⟨_, _, s₁, _, rfl, hget, hsearch⟩ := Runs.of_bind hrun
  rw [Runs.of_quiet hsearch (quiet_searchList key _), List.append_nil]
  rcases getList_runs (Holds.of_owns hslot hown) hget with ⟨hnone, -⟩ | ⟨_, -, -, -, hanswers⟩
  · rw [hslot] at hnone
    cases hnone
  · rw [hanswers, hslot]
    rfl

theorem quiet_addToList (mdc list : Pointer) : Quiet (addToList mdc list) := by
  refine Quiet.bind Quiet.load fun head => ?_
  cases head with
  | none => exact Quiet.store
  | some head => exact Quiet.bind Quiet.store fun _ => Quiet.bind Quiet.store fun _ => Quiet.store

theorem field_runs {mdc p : Pointer} {read : Mdc → Pointer}
    (hrun : Runs (field mdc read) s answers p s') : answers = [] ∧ s' = s ∧
      ∃ a block, mdc = some a ∧ s.heap a = some (.entry block) ∧ p = read block := by
  obtain ⟨hanswers, hs, a, block, ha, hblock, hfield⟩ := Runs.of_load hrun
  obtain ⟨entry, hentry, rfl⟩ := Option.map_eq_some_iff.mp hfield
  cases block with
  | entry mdc =>
    cases hentry
    exact ⟨hanswers, hs, a, _, ha, hblock, rfl⟩
  | _ => cases hentry

theorem setField_runs {a : Addr} {mdc : Mdc} {write : Mdc → Mdc} {u : Unit}
    (hmdc : s.heap a = some (.entry mdc)) (hrun : Runs (setField (some a) write) s answers u s') :
    answers = [] ∧ s' = s.set a (some (.entry (write mdc))) := by
  obtain ⟨hanswers, _, block, block', ⟨⟩, hblock, hfield, rfl⟩ := Runs.of_store hrun
  rw [hmdc, Option.some.injEq] at hblock
  subst hblock
  cases hfield
  exact ⟨hanswers, rfl⟩

/-- `mdc_destroy` with whatever the entry holds by then. -/
theorem mdcDestroy_runs {m : Addr} {mdc : Mdc} {u : Unit} (hmdc : s.heap m = some (.entry mdc))
    (hrun : Runs (mdcDestroy (some m)) s answers u s') :
    answers = [] ∧ s'.slot = s.slot ∧ s'.heap m = none ∧
      ∀ a, a ≠ m → mdc.key ≠ some a → mdc.value ≠ some a → s'.heap a = s.heap a := by
  obtain ⟨_, _, s₁, _, rfl, hkey, hrun₁⟩ := Runs.of_bind hrun
  obtain ⟨rfl, rfl, _, block, ⟨⟩, hblock, rfl⟩ := field_runs hkey
  rw [hmdc, Option.some.injEq, Block.entry.injEq] at hblock
  subst hblock
  obtain ⟨_, _, s₂, _, rfl, hfree₂, hrun₂⟩ := Runs.of_bind hrun₁
  obtain ⟨rfl, hslot₂, hdead₂, hsame₂⟩ := Runs.of_free hfree₂
  obtain ⟨_, _, s₃, _, rfl, hvalue, hrun₃⟩ := Runs.of_bind hrun₂
  obtain ⟨rfl, rfl, _, block, ⟨⟩, hblock, rfl⟩ := field_runs hvalue
  have hother : mdc.key ≠ some m := by
    intro heq
    rw [hdead₂ m heq] at hblock
    cases hblock
  rw [hsame₂ m hother, hmdc, Option.some.injEq, Block.entry.injEq] at hblock
  subst hblock
  obtain ⟨_, _, s₄, _, rfl, hfree₄, hfree₅⟩ := Runs.of_bind hrun₃
  obtain ⟨rfl, hslot₄, -, hsame₄⟩ := Runs.of_free hfree₄
  obtain ⟨rfl, hslot₅, hdead₅, hsame₅⟩ := Runs.of_free hfree₅
  refine ⟨rfl, hslot₅.trans (hslot₄.trans hslot₂), hdead₅ m rfl, ?_⟩
  intro a ham hkey hvalue
  rw [hsame₅ a fun heq => ham (Option.some.inj heq).symm, hsame₄ a hvalue, hsame₂ a hkey]

theorem escapeAndCopy_runs {text : CStr} {p : Pointer} {nodes : List Node}
    (hspine : Spine s.heap list nodes) (hrun : Runs (escapeAndCopy text) s answers p s') :
    answers = [p.isSome] ∧ s'.slot = s.slot ∧ Spine s'.heap list nodes ∧
      (∀ a, p ≠ some a → s'.heap a = s.heap a) ∧
      ∀ a, p = some a → s.heap a = none ∧ a ≠ list ∧ a ∉ nodes.map Node.addr := by
  obtain ⟨_, _, s₁, _, rfl, hmalloc, hrun₁⟩ := Runs.of_bind hrun
  rcases Runs.of_malloc hmalloc with ⟨rfl, rfl, rfl⟩ | ⟨a, hfresh, rfl, rfl, rfl⟩
  · obtain ⟨rfl, rfl, rfl⟩ := Runs.of_pure hrun₁
    exact ⟨rfl, rfl, hspine, fun _ _ => rfl, nofun⟩
  · obtain ⟨_, _, s₂, _, rfl, hstore, hrun₂⟩ := Runs.of_bind hrun₁
    obtain ⟨rfl, _, _, block, ⟨⟩, -, -, rfl⟩ := Runs.of_store hstore
    obtain ⟨rfl, rfl, rfl⟩ := Runs.of_pure hrun₂
    have hout := spine_other hspine (.inl hfresh)
    refine ⟨rfl, rfl, ?_, ?_, ?_⟩
    · exact (hspine.update hout.1 hout.2).update hout.1 hout.2
    · intro c hc
      have hne : c ≠ a := fun heq => hc (congrArg some heq.symm)
      rw [Memory.set_heap_of_ne _ _ hne, Memory.set_heap_of_ne _ _ hne]
    · rintro _ ⟨rfl⟩
      exact ⟨hfresh, hout⟩

/-- The shared end of the call: it returns -1 when the key or the value is null,
and by then the destroyed entry is still in the list. -/
theorem setValue_runs {value : CStr} {front back : List Node} {node : Node} {mdc : Mdc} {r : Int}
    (hspine : Spine s.heap list (front ++ node :: back)) (hslot : s.slot = some list)
    (hmdc : s.heap node.addr = some (.entry mdc))
    (hkey : ∀ a, mdc.key = some a → a ≠ list ∧ a ∉ (front ++ node :: back).map Node.addr)
    (hrun : Runs (setValue (some node.addr) value) s answers r s') :
    ∃ copied, answers = [copied] ∧
      ((mdc.key.isSome && copied) = true → r = 0) ∧
      ((mdc.key.isSome && copied) = false → r = -1 ∧ ∀ pairs, ¬Reads s' pairs) := by
  obtain ⟨_, copy, s₁, _, rfl, hcopy, hrun₁⟩ := Runs.of_bind hrun
  obtain ⟨rfl, hslot₁, hspine₁, hsame₁, hfresh⟩ := escapeAndCopy_runs hspine hcopy
  have hmdc₁ : s₁.heap node.addr = some (.entry mdc) := by
    rw [hsame₁, hmdc]
    intro heq
    exact (hfresh _ heq).2.2 (by simp)
  obtain ⟨_, _, s₂, _, rfl, hset, hrun₂⟩ := Runs.of_bind hrun₁
  obtain ⟨rfl, rfl⟩ := setField_runs hmdc₁ hset
  set s₂ := s₁.set node.addr (some (.entry { mdc with value := copy })) with hs₂
  have hspine₂ : Spine s₂.heap list (front ++ { node with value := copy } :: back) :=
    hspine₁.setValue copy hmdc₁
  have hmdc₂ : s₂.heap node.addr = some (.entry { mdc with value := copy }) :=
    s₁.set_heap_self _ _
  obtain ⟨_, _, s₃, _, rfl, hload, hrun₃⟩ := Runs.of_bind hrun₂
  obtain ⟨rfl, rfl, _, block, ⟨⟩, hblock, rfl⟩ := field_runs hload
  rw [hmdc₂, Option.some.injEq, Block.entry.injEq] at hblock
  subst hblock
  obtain ⟨_, _, s₄, _, rfl, hload', hrun₄⟩ := Runs.of_bind hrun₃
  obtain ⟨rfl, rfl, _, block, ⟨⟩, hblock, rfl⟩ := field_runs hload'
  rw [hmdc₂, Option.some.injEq, Block.entry.injEq] at hblock
  subst hblock
  refine ⟨copy.isSome, ?_⟩
  by_cases hboth : (mdc.key.isSome && copy.isSome) = true
  · rw [if_pos hboth] at hrun₄
    obtain ⟨rfl, rfl, -⟩ := Runs.of_pure hrun₄
    exact ⟨rfl, fun _ => rfl, fun hfalse => by rw [hboth] at hfalse; cases hfalse⟩
  · rw [if_neg hboth] at hrun₄
    obtain ⟨_, _, _, _, rfl, hdestroy, hrun₅⟩ := Runs.of_bind hrun₄
    obtain ⟨rfl, rfl, rfl⟩ := Runs.of_pure hrun₅
    obtain ⟨rfl, hslot₅, hdead, hsame₅⟩ := mdcDestroy_runs hmdc₂ hdestroy
    refine ⟨rfl, fun htrue => absurd htrue hboth, fun _ => ⟨rfl, ?_⟩⟩
    have hnodes : Nodes s₂.heap list (front.map Node.addr ++ node.addr :: back.map Node.addr) := by
      simpa only [List.map_append, List.map_cons] using hspine₂.linked
    have hkept : ∀ c, c ≠ node.addr → (c = list ∨ c ∈ (front ++ node :: back).map Node.addr) →
        s'.heap c = s₂.heap c := by
      intro c hne hc
      refine hsame₅ c hne (fun heq => ?_) fun heq => ?_
      · have hout := hkey c heq
        tauto
      · have hout := (hfresh c heq).2
        tauto
    have hnodup := hspine.nodup
    rw [List.map_append, List.map_cons, List.nodup_middle, List.nodup_cons] at hnodup
    refine not_reads hnodes (hslot₅.trans (hslot₁.trans hslot)) ?_ ?_ hdead
    · exact hkept list (hspine.linked.list_ne hmdc) (.inl rfl)
    · intro c hc
      refine hkept c ?_ (.inr ?_)
      · rintro rfl
        exact hnodup.1 (List.mem_append_left _ hc)
      · rw [List.map_append]
        exact List.mem_append_left _ hc

theorem allocEntry_runs {p : Pointer} (hrun : Runs allocEntry s answers p s') :
    (answers = [false] ∧ p = none ∧ s' = s) ∨ ∃ m, s.heap m = none ∧ answers = [true] ∧
      p = some m ∧ s' = s.set m (some (.entry ⟨none, none, none, none⟩)) := by
  obtain ⟨_, _, s₁, _, rfl, hmalloc, hrun₁⟩ := Runs.of_bind hrun
  rcases Runs.of_malloc hmalloc with ⟨rfl, rfl, rfl⟩ | ⟨m, hfresh, rfl, rfl, rfl⟩
  · obtain ⟨rfl, rfl, rfl⟩ := Runs.of_pure hrun₁
    exact .inl ⟨rfl, rfl, rfl⟩
  · obtain ⟨_, _, s₂, _, rfl, hstore, hrun₂⟩ := Runs.of_bind hrun₁
    obtain ⟨rfl, _, _, block, ⟨⟩, -, ⟨⟩, rfl⟩ := Runs.of_store hstore
    obtain ⟨rfl, rfl, rfl⟩ := Runs.of_pure hrun₂
    exact .inr ⟨m, hfresh, rfl, rfl, by simp [Memory.set]⟩

/-- With or without a copy of the key the list stays as it was. -/
theorem strdup_runs {text : CStr} {p : Pointer} {m : Addr} {mdc : Mdc}
    (hown : Owns s.heap list cells frame) (hmdc : s.heap m = some (.entry mdc))
    (hrun : Runs (strdup text) s answers p s') :
    answers = [p.isSome] ∧ s'.slot = s.slot ∧ (∃ frame, Owns s'.heap list cells frame) ∧
      s'.heap m = some (.entry mdc) ∧
      ∀ a, p = some a → a ≠ list ∧ a ∉ m :: cells.map Cell.addr := by
  rcases Runs.of_malloc hrun with ⟨rfl, rfl, rfl⟩ | ⟨a, ha, rfl, rfl, rfl⟩
  · exact ⟨rfl, rfl, ⟨_, hown⟩, hmdc, nofun⟩
  · have hout := hown.fresh ha
    have hne : m ≠ a := by
      rintro rfl
      rw [ha] at hmdc
      cases hmdc
    refine ⟨rfl, rfl, ⟨_, hown.set_frame hout _⟩, (s.set_heap_of_ne _ hne).trans hmdc, ?_⟩
    rintro _ ⟨rfl⟩
    rw [mem_footprint, not_or, not_or] at hout
    rw [List.mem_cons, not_or]
    exact ⟨hout.1, hne.symm, hout.2.1⟩

/-- A new key: the entry is in the list before its value is copied. -/
theorem putNew_runs {key value : CStr} {r : Int} (hown : Owns s.heap list cells frame)
    (hslot : s.slot = some list) (hrun : Runs (do
        let mdc ← allocEntry
        match mdc with
        | none => return -1
        | some _ =>
            let name ← strdup key
            setField mdc fun mdc => { mdc with key := name }
            addToList mdc (some list)
            setValue mdc value) s answers r s') :
    (answers = [false] ∧ r = -1 ∧ s' = s) ∨ ∃ named copied, answers = [true, named, copied] ∧
      ((named && copied) = true → r = 0) ∧
      ((named && copied) = false → r = -1 ∧ ∀ pairs, ¬Reads s' pairs) := by
  obtain ⟨_, _, s₁, _, rfl, halloc, hrun₁⟩ := Runs.of_bind hrun
  rcases allocEntry_runs halloc with ⟨rfl, rfl, rfl⟩ | ⟨m, hm, rfl, rfl, rfl⟩
  · obtain ⟨rfl, rfl, rfl⟩ := Runs.of_pure hrun₁
    exact .inl ⟨rfl, rfl, rfl⟩
  · set s₁ := s.set m (some (.entry ⟨none, none, none, none⟩)) with hs₁
    have hout := hown.fresh hm
    have hown₁ : Owns s₁.heap list cells _ := hown.set_frame hout _
    have hm₁ : s₁.heap m = some (.entry ⟨none, none, none, none⟩) := s.set_heap_self m _
    obtain ⟨_, name, s₂, _, rfl, hstrdup, hrun₂⟩ := Runs.of_bind hrun₁
    obtain ⟨rfl, hslot₂, ⟨frame₂, hown₂⟩, hm₂, hname⟩ := strdup_runs hown₁ hm₁ hstrdup
    obtain ⟨_, _, s₃, _, rfl, hset, hrun₃⟩ := Runs.of_bind hrun₂
    obtain ⟨rfl, rfl⟩ := setField_runs hm₂ hset
    set s₃ := s₂.set m (some (.entry ⟨none, none, name, none⟩)) with hs₃
    have hown₃ : Owns s₃.heap list cells _ := hown₂.set_frame hout _
    obtain ⟨_, _, s₄, _, rfl, hadd, hrun₄⟩ := Runs.of_bind hrun₃
    obtain rfl := Runs.of_quiet hadd (quiet_addToList _ _)
    have hnew : m ∉ (cells.map Cell.node).map Node.addr := by
      rw [map_node_addr]
      rw [mem_footprint] at hout
      tauto
    obtain ⟨htouches, hspine⟩ := (addToList_spec hown₃.spine
      (fun p hp => by simpa [hs₃, hslot₂, hs₁, hslot] using hp.symm) hnew
      (s₂.set_heap_self m _)).runs hadd
    obtain ⟨mdc, hmdc, hkey, -⟩ := hspine.entry
      (show (⟨m, name, none⟩ : Node) ∈ _ :: cells.map Cell.node by simp)
    have hkey' : mdc.key = name := hkey
    obtain ⟨copied, rfl, hdone, hfailed⟩ := setValue_runs (show Spine s₄.heap list
      ([] ++ ⟨m, name, none⟩ :: cells.map Cell.node) from hspine)
      (htouches.slot.trans (hslot₂.trans hslot)) hmdc
      (by
        rw [hkey', List.nil_append, List.map_cons, map_node_addr]
        exact hname) hrun₄
    rw [hkey'] at hdone hfailed
    exact .inr ⟨name.isSome, copied, rfl, hdone, hfailed⟩

/-- A known key: the old value is freed before the new one is copied. -/
theorem putOld_runs {value : CStr} {r : Int} {front back : List Cell} {cell : Cell}
    (hown : Owns s.heap list (front ++ cell :: back) frame) (hslot : s.slot = some list)
    (hrun : Runs (do
        free (← field (some cell.addr) Mdc.value)
        setValue (some cell.addr) value) s answers r s') :
    ∃ copied, answers = [copied] ∧ (copied = true → r = 0) ∧
      (copied = false → r = -1 ∧ ∀ pairs, ¬Reads s' pairs) := by
  have hmem : cell ∈ front ++ cell :: back := by simp
  have htexts := hown.texts cell hmem
  have hspine : Spine s.heap list (front.map Cell.node ++ cell.node :: back.map Cell.node) := by
    simpa using hown.spine
  obtain ⟨mdc, hmdc, hkey, hvalue⟩ := hspine.entry (show cell.node ∈ _ by simp)
  obtain ⟨_, _, s₁, _, rfl, hload, hrun₁⟩ := Runs.of_bind hrun
  obtain ⟨rfl, rfl, _, block, ⟨⟩, hblock, rfl⟩ := field_runs hload
  have hmdc' : s₁.heap cell.addr = some (.entry mdc) := hmdc
  rw [hmdc', Option.some.injEq, Block.entry.injEq] at hblock
  subst hblock
  obtain ⟨_, _, s₂, _, rfl, hfree, hrun₂⟩ := Runs.of_bind hrun₁
  obtain ⟨rfl, hslot₂, hdead, hsame⟩ := Runs.of_free hfree
  have hkeyOut := spine_other hspine (.inr ⟨_, htexts.1⟩)
  have hvalueOut := spine_other hspine (.inr ⟨_, htexts.2⟩)
  have hheap : s₂.heap = Function.update s₁.heap cell.valueAddr none := by
    funext a
    by_cases ha : a = cell.valueAddr
    · rw [ha, Function.update_self]
      exact hdead _ hvalue
    · rw [Function.update_of_ne ha]
      refine hsame a fun heq => ha ?_
      rw [hvalue] at heq
      exact (Option.some.inj heq).symm
  have hspine₂ : Spine s₂.heap list (front.map Cell.node ++ cell.node :: back.map Cell.node) := by
    rw [hheap]
    exact hspine.update hvalueOut.1 hvalueOut.2
  have hmdc₂ : s₂.heap cell.node.addr = some (.entry mdc) := by
    rw [hheap, Function.update_of_ne, hmdc]
    intro heq
    exact hvalueOut.2 (by simp [← heq])
  obtain ⟨copied, rfl, hdone, hfailed⟩ := setValue_runs hspine₂ (hslot₂.trans hslot) hmdc₂
    (by
      rw [hkey]
      rintro _ ⟨rfl⟩
      exact hkeyOut) hrun₂
  have hnamed : mdc.key.isSome = true := by
    rw [hkey]
    rfl
  rw [hnamed, Bool.true_and] at hdone hfailed
  exact ⟨copied, rfl, hdone, hfailed⟩

end parts

/-- The allocations the call makes for a list and its slot, and for an entry. -/
def setup (s : Memory Block) (key : CStr) (cells : List Cell) : Nat :=
  (if s.slot = none then 2 else 0) + if key ∈ cells.map Cell.key then 0 else 1

/-- A call that returns -1 has left the store alone exactly when neither the copy of
the key nor that of the value failed. -/
theorem failed_add_intact_iff {s s' : Memory Block} {cells : List Cell} {frame : Heap Block}
    (h : Holds s cells frame) {key value : CStr} {answers : List Bool} {r : Int}
    (hrun : Runs (mdclogInternalPutMdc key value) s answers r s') :
    (r = -1 → Reads s' (cells.map Cell.pair)) ↔ false ∉ answers.drop (setup s key cells) := by
  obtain ⟨first, p, s₁, _, rfl, hget, hrun₁⟩ := Runs.of_bind hrun
  rcases getList_runs h hget with ⟨hslot, rfl, hwhy⟩ | ⟨list, rfl, hslot, hown, hfirst⟩
  · obtain ⟨rfl, rfl, rfl⟩ := Runs.of_pure hrun₁
    obtain rfl : cells = [] := h.nil_of_slot hslot
    have hshort : first.length ≤ 2 := by
      rcases hwhy with ⟨rfl, -⟩ | ⟨rfl, -⟩ <;> simp
    have hslot' : s'.slot = none := by
      rcases hwhy with ⟨-, rfl⟩ | ⟨-, a, -, rfl⟩ <;> exact hslot
    have hdrop : (first ++ []).drop (setup s key []) = [] := by
      rw [List.drop_eq_nil_iff, setup, if_pos hslot, List.append_nil]
      exact Nat.le_add_right_of_le hshort
    rw [hdrop]
    exact iff_of_true (fun _ => .inl ⟨hslot', rfl⟩) List.not_mem_nil
  · obtain ⟨_, _, s₂, rest, rfl, hsearch, hrun₂⟩ := Runs.of_bind hrun₁
    obtain ⟨rfl, rfl, rfl⟩ := searchMdc_runs hown hslot hsearch
    have hlength : (if s.slot = none then 2 else 0) = first.length := by
      rw [hfirst]
      split <;> rfl
    rw [setup, hlength, List.nil_append, List.drop_length_add_append]
    cases hfind : cells.find? fun cell => key = cell.key with
    | none =>
      have hnew : key ∉ cells.map Cell.key := by
        intro hmem
        obtain ⟨cell, hcell, rfl⟩ := List.mem_map.mp hmem
        simpa using List.find?_eq_none.mp hfind cell hcell
      rw [hfind] at hrun₂
      rw [if_neg hnew]
      rcases putNew_runs hown hslot hrun₂ with
        ⟨rfl, rfl, rfl⟩ | ⟨named, copied, rfl, hdone, hfailed⟩
      · exact iff_of_true (fun _ => reads_of_owns hown hslot) (by simp)
      · cases hboth : named && copied with
        | true =>
          have hr := hdone hboth
          rw [Bool.and_eq_true] at hboth
          obtain ⟨rfl, rfl⟩ := hboth
          exact iff_of_true (fun hr' => by omega) (by simp)
        | false =>
          obtain ⟨hr, hbroken⟩ := hfailed hboth
          refine iff_of_false (fun himp => hbroken _ (himp hr)) ?_
          rw [Bool.and_eq_false_iff] at hboth
          rcases hboth with rfl | rfl <;> simp
    | some cell =>
      obtain ⟨rfl, front, back, rfl⟩ := find_middle hfind
      rw [hfind] at hrun₂
      rw [if_pos (by simp)]
      obtain ⟨copied, rfl, hdone, hfailed⟩ := putOld_runs hown hslot hrun₂
      cases copied with
      | true =>
        have hr := hdone rfl
        exact iff_of_true (fun hr' => by omega) (by simp)
      | false =>
        obtain ⟨hr, hbroken⟩ := hfailed rfl
        exact iff_of_false (fun himp => hbroken _ (himp hr)) (by simp)

/-- The memory of a thread that made no call yet. -/
def blank : Memory Block := ⟨fun _ => none, none, []⟩

theorem holds_blank : Holds blank [] fun _ => none := .inl ⟨rfl, rfl, rfl⟩

/-- No memory for the entry: nothing happened. -/
theorem failed_add_intact_entry :
    ∃ s', Runs (mdclogInternalPutMdc (.ofString "k") (.ofString "v")) blank
        [true, true, false] (-1) s' ∧ Reads s' [] := by
  have hrun : ∃ s', Runs (mdclogInternalPutMdc (.ofString "k") (.ofString "v")) blank
      [true, true, false] (-1) s' :=
    ⟨_, Runs.of_eval (show Prog.eval 20 [some 0, some 1, none] _ _ = _ from rfl)⟩
  obtain ⟨s', hrun⟩ := hrun
  exact ⟨s', hrun, (failed_add_intact_iff holds_blank hrun).mpr (by decide) rfl⟩

/-- No memory for the value: the list starts with the freed entry. -/
theorem failed_add_dangling :
    ∃ s', Runs (mdclogInternalPutMdc (.ofString "k") (.ofString "v")) blank
        [true, true, true, true, false] (-1) s' ∧
      s'.slot = some 0 ∧ s'.heap 0 = some (.list (some 1)) ∧ s'.heap 1 = none ∧
      ¬Reads s' [] := by
  refine ⟨_, Runs.of_eval (show Prog.eval 40 [some 0, some 1, some 1, some 2, none] _ _ = _ from rfl),
    rfl, rfl, rfl, ?_⟩
  rintro (⟨hslot, -⟩ | ⟨list, addrs, hslot, hnodes, hpairs⟩)
  · cases hslot
  · cases hslot
    cases List.map_eq_nil_iff.mp hpairs
    cases hnodes.1

end Mdclog.FailedAdd
