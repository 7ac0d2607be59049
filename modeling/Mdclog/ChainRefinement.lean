import Mdclog.ChainHeap
import Mdclog.FormatStore

/-! The calls of `mdclog.c` see a list that may break; the calls on the heap do the
same, for whatever their allocations got. -/
namespace Mdclog.ChainRefinement
open Foundation.HeapProgram Foundation.OrderedMap Foundation.StateProgram
open CString Escape JsonFormat MdcList MdcHeap MdcStore MdcSpec MdcRefinement FailedAdd ChainHeap
open Api (Chain Library System)

/-! The programs of `mdclog.c` on the list of one thread. -/

section yields
variable {T : Type} [DecidableEq T]

/-- In an initialised library where the thread has `list`, and with these answers
of the allocator, the program returns `result` and leaves the thread `list'`. -/
def Yields (system : System) (t : T) (p : Api.Program T α) (list : Option Chain)
    (answers : List Bool) (result : α) (list' : Option Chain) : Prop :=
  ∀ s : Library T, s.initDone = true → s.mdcs t = list →
    (∀ i ok, answers[i]? = some ok → system.malloc (s.allocations + i) = ok) →
    p.run s = some (result, { s with
      mdcs := Function.update s.mdcs t list', allocations := s.allocations + answers.length })

variable {system : System} {t : T} {list list' list'' : Option Chain}
  {answers answers' : List Bool}

theorem Yields.pure (result : α) : Yields system t (pure result) list [] result list := by
  rintro s - rfl -
  rw [Function.update_eq_self]
  rfl

theorem Yields.bind {p : Api.Program T α} {f : α → Api.Program T β} {a : α} {b : β}
    (hp : Yields system t p list answers a list') (hf : Yields system t (f a) list' answers' b list'') :
    Yields system t (p >>= f) list (answers ++ answers') b list'' := by
  intro s hinit hlist hanswers
  have hfirst := hp s hinit hlist fun i ok hok => hanswers i ok (by
    rw [List.getElem?_append_left (List.getElem?_eq_some_iff.mp hok).1, hok])
  have hlast := hf { s with
      mdcs := Function.update s.mdcs t list', allocations := s.allocations + answers.length }
    hinit (Function.update_self t list' s.mdcs) fun i ok hok => by
      have hnext := hanswers (answers.length + i) ok (by
        rw [List.getElem?_append_right (Nat.le_add_right _ _), Nat.add_sub_cancel_left, hok])
      rwa [← Nat.add_assoc] at hnext
  rw [StateT.run_bind, hfirst]
  refine hlast.trans ?_
  rw [Function.update_idem, List.length_append, ← Nat.add_assoc]

theorem Yields.lift {value : Option α} {a : α} (h : value = some a) :
    Yields system t (liftM value) list [] a list := by
  subst h
  exact Yields.pure a

theorem yields_allocate (ok : Bool) :
    Yields system t (Api.allocate system) list [ok] ok list := by
  rintro s - rfl hanswers
  have hok : system.malloc s.allocations = ok := hanswers 0 ok rfl
  rw [ApiFrame.allocate_eq, Function.update_eq_self, hok]
  rfl

theorem yields_strdup (text : CStr) (ok : Bool) :
    Yields system t (Api.strdup system text) list [ok] (if ok then some text else none) list :=
  (yields_allocate ok).bind (.pure _)

theorem yields_initLibrary : Yields system t (Api.initLibrary system none) list [] () list := by
  rintro s hinit rfl -
  rw [Function.update_eq_self]
  change (if s.initDone = true then _ else _ : Api.Program T Unit).run s = _
  rw [if_pos hinit]
  rfl

theorem yields_setList (list' : Option Chain) :
    Yields system t (Api.setList t list') list [] () list' := by
  rintro s - - -
  rfl

theorem getList_run (s : Library T) : (Api.getList system t).run s =
    match s.mdcs t with
    | some chain => some (some chain, s)
    | none =>
        if system.malloc s.allocations then
          if system.malloc (s.allocations + 1) then some (some ⟨.empty, false⟩, { s with
            mdcs := Function.update s.mdcs t (some ⟨.empty, false⟩),
            allocations := s.allocations + 2 })
          else some (none, { s with allocations := s.allocations + 2 })
        else some (none, { s with allocations := s.allocations + 1 }) := by
  unfold Api.getList
  rw [StateT.run_bind]
  change (match s.mdcs t with | some list => _ | none => _ : Api.Program T (Option Chain)).run s = _
  cases s.mdcs t with
  | some chain => rfl
  | none =>
    rw [StateT.run_bind, ApiFrame.allocate_eq]
    cases hok : system.malloc s.allocations with
    | false => rfl
    | true =>
      change (Api.allocate system >>= fun ok => if ok then _ else _ :
        Api.Program T (Option Chain)).run { s with allocations := s.allocations + 1 } = _
      rw [StateT.run_bind, ApiFrame.allocate_eq]
      cases hslot : system.malloc (s.allocations + 1) with
      | true => rfl
      | false => rfl

theorem yields_getList (hwhole : ∀ chain ∈ list, chain.broken = false) :
    Yields system t (Api.getList system t) list (if list.isNone then [true, true] else [])
      (some ⟨storeOf list, false⟩) (some ⟨storeOf list, false⟩) := by
  rintro s - rfl hanswers
  rw [getList_run]
  cases hlist : s.mdcs t with
  | none =>
    rw [hlist] at hanswers
    have hok : system.malloc s.allocations = true := hanswers 0 true rfl
    have hslot : system.malloc (s.allocations + 1) = true := hanswers 1 true rfl
    rw [hok, hslot]
    rfl
  | some chain =>
    obtain ⟨store, broken⟩ := chain
    obtain rfl : broken = false := hwhole ⟨store, broken⟩ hlist
    have hself : Function.update s.mdcs t (some ⟨store, false⟩) = s.mdcs := by
      rw [← hlist, Function.update_eq_self]
    change _ = some (some (⟨store, false⟩ : Chain), { s with
      mdcs := Function.update s.mdcs t (some ⟨store, false⟩) })
    rw [hself]

theorem yields_getList_fails : Yields system t (Api.getList system t) none [false] none none := by
  rintro s - hlist hanswers
  have hok : system.malloc s.allocations = false := hanswers 0 false rfl
  have hself : Function.update s.mdcs t none = s.mdcs := by
    rw [← hlist, Function.update_eq_self]
  rw [getList_run, hlist, hok, hself]
  rfl

/-! `mdclog_internal_put_mdc` by what its allocations get. -/

section put
variable {key value : CStr} (hclean : Clean key.bytes) {first : List Bool} {chain : Chain}
include hclean

theorem yields_putNone (hget : Yields system t (Api.getList system t) list first none none) :
    Yields system t (Api.mdclogInternalPutMdc system t key value hclean) list first (-1) none := by
  rw [← List.append_nil first]
  unfold Api.mdclogInternalPutMdc
  exact hget.bind (.pure (-1))

theorem yields_putNew
    (hget : Yields system t (Api.getList system t) list first (some chain) (some chain))
    (hsearch : chain.search key = some none) (entry name copy : Bool) :
    Yields system t (Api.mdclogInternalPutMdc system t key value hclean) list
      (first ++ if entry then [true, name, copy] else [false])
      (if entry && name && copy then 0 else -1)
      (if entry then
        if name && copy then some ⟨chain.store.put key value hclean, chain.broken⟩
        else some ⟨.empty, true⟩
      else some chain) := by
  unfold Api.mdclogInternalPutMdc
  refine hget.bind ?_
  cases entry with
  | false =>
    refine (Yields.lift hsearch).bind ?_
    exact (yields_allocate false).bind (.pure (-1))
  | true =>
    refine (Yields.lift hsearch).bind ?_
    refine (yields_allocate true).bind ?_
    refine (yields_allocate name).bind ?_
    refine (yields_allocate copy).bind ?_
    cases hboth : name && copy with
    | true =>
      simp only [Bool.true_and, hboth, if_true]
      exact (yields_setList _).bind (.pure 0)
    | false =>
      simp only [Bool.true_and, hboth, Bool.false_eq_true, if_true, if_false]
      exact (yields_setList _).bind (.pure (-1))

theorem yields_putOld {old : CStr}
    (hget : Yields system t (Api.getList system t) list first (some chain) (some chain))
    (hsearch : chain.search key = some (some old)) (copy : Bool) :
    Yields system t (Api.mdclogInternalPutMdc system t key value hclean) list (first ++ [copy])
      (if copy then 0 else -1)
      (if copy then some ⟨chain.store.put key value hclean, chain.broken⟩
      else some (chain.cut key)) := by
  unfold Api.mdclogInternalPutMdc
  refine hget.bind ?_
  refine (Yields.lift hsearch).bind ?_
  refine (yields_allocate copy).bind ?_
  cases copy with
  | false => exact (yields_setList _).bind (.pure (-1))
  | true => exact (yields_setList _).bind (.pure 0)

end put

/-! The other calls. -/

section others
variable {key : CStr} {first : List Bool} {chain : Chain}

theorem yields_getNone (hget : Yields system t (Api.getList system t) list first none none) :
    Yields system t (Api.mdclogMdcGet system t (some key)) list first none none := by
  rw [← List.append_nil first]
  unfold Api.mdclogMdcGet
  refine yields_initLibrary.bind ?_
  exact hget.bind (.pure none)

theorem yields_getMissing
    (hget : Yields system t (Api.getList system t) list first (some chain) (some chain))
    (hsearch : chain.search key = some none) :
    Yields system t (Api.mdclogMdcGet system t (some key)) list first none (some chain) := by
  rw [← List.append_nil first]
  unfold Api.mdclogMdcGet
  refine yields_initLibrary.bind ?_
  refine hget.bind ?_
  exact (Yields.lift hsearch).bind (.pure none)

theorem yields_getFound {value : CStr}
    (hget : Yields system t (Api.getList system t) list first (some chain) (some chain))
    (hsearch : chain.search key = some (some value)) (copy : Bool) :
    Yields system t (Api.mdclogMdcGet system t (some key)) list (first ++ [copy])
      (if copy then some value else none) (some chain) := by
  unfold Api.mdclogMdcGet
  refine yields_initLibrary.bind ?_
  refine hget.bind ?_
  exact (Yields.lift hsearch).bind (yields_strdup value copy)

theorem yields_removeNone (hget : Yields system t (Api.getList system t) list first none none) :
    Yields system t (Api.mdclogMdcRemove system t (some key)) list first () none := by
  rw [← List.append_nil first]
  unfold Api.mdclogMdcRemove
  refine yields_initLibrary.bind ?_
  exact hget.bind (.pure ())

theorem yields_removeMissing
    (hget : Yields system t (Api.getList system t) list first (some chain) (some chain))
    (hsearch : chain.search key = some none) :
    Yields system t (Api.mdclogMdcRemove system t (some key)) list first () (some chain) := by
  rw [← List.append_nil first]
  unfold Api.mdclogMdcRemove
  refine yields_initLibrary.bind ?_
  refine hget.bind ?_
  exact (Yields.lift hsearch).bind (.pure ())

theorem yields_removeFound {value : CStr} {store : Store}
    (hget : Yields system t (Api.getList system t) list first (some ⟨store, false⟩)
      (some ⟨store, false⟩))
    (hsearch : Chain.search ⟨store, false⟩ key = some (some value)) :
    Yields system t (Api.mdclogMdcRemove system t (some key)) list first ()
      (some ⟨store.erase key, false⟩) := by
  rw [← List.append_nil first]
  unfold Api.mdclogMdcRemove
  refine yields_initLibrary.bind ?_
  refine hget.bind ?_
  exact (Yields.lift hsearch).bind (yields_setList _)

theorem yields_cleanNone (hget : Yields system t (Api.getList system t) list first none none) :
    Yields system t (Api.mdclogMdcClean system t) list first () none := by
  rw [← List.append_nil first]
  unfold Api.mdclogMdcClean
  refine yields_initLibrary.bind ?_
  exact hget.bind (.pure ())

theorem yields_cleanList {store : Store}
    (hget : Yields system t (Api.getList system t) list first (some ⟨store, false⟩)
      (some ⟨store, false⟩)) :
    Yields system t (Api.mdclogMdcClean system t) list first () (some ⟨.empty, false⟩) := by
  rw [← List.append_nil first]
  unfold Api.mdclogMdcClean
  refine yields_initLibrary.bind ?_
  exact hget.bind (yields_setList _)

theorem yields_firstNone {tv : Timeval} {severity : Severity}
    (hget : Yields system t (Api.getList system t) list first none none) :
    Yields system t (Api.firstMdc system t tv severity) list first [] none := by
  rw [← List.append_nil first]
  unfold Api.firstMdc
  exact hget.bind (.pure [])

theorem yields_firstList {tv : Timeval} {severity : Severity} {store : Store}
    (hget : Yields system t (Api.getList system t) list first (some ⟨store, false⟩)
      (some ⟨store, false⟩)) :
    Yields system t (Api.firstMdc system t tv severity) list first store.pairs
      (some ⟨store, false⟩) := by
  rw [← List.append_nil first]
  unfold Api.firstMdc
  refine hget.bind ?_
  exact fun s hinit hlist hanswers => Yields.pure store.pairs s hinit hlist hanswers

end others

/-- A program whose result is wrapped. -/
theorem Yields.map {p : Api.Program T α} {a : α} (f : α → β)
    (h : Yields system t p list answers a list') :
    Yields system t (p >>= fun a => Pure.pure (f a)) list answers (f a) list' := by
  rw [← List.append_nil answers]
  exact h.bind (.pure _)

end yields

/-! The calls on the heap. -/

/-- What a call of a thread does with its list in `mdclog.c`, where `tv` and
`severity` are those of `mdclog_write`. The end of a thread takes its list. -/
def inMdclog {T : Type} [DecidableEq T] (system : System) (t : T) (tv : Timeval)
    (severity : Severity) : Call → Api.Program T Result
  | .add key value => do return .status (← Api.mdclogMdcAdd system t key value)
  | .get key => do return .value (← Api.mdclogMdcGet system t key)
  | .remove key => do
      Api.mdclogMdcRemove system t key
      return .done
  | .clean => do
      Api.mdclogMdcClean system t
      return .done
  | .write fits => do return .pairs (handed fits [] (← Api.firstMdc system t tv severity))
  | .exit | .destroy => do
      Api.setList t none
      return .done

/-- The text a call hands out in a block of its own. -/
def given : Result → Option CStr
  | .value text => text
  | _ => none

/-- What a call adds to the blocks beside the list: the text that it hands out, or an
empty list that `pthread_setspecific` did not take. -/
inductive Gains (list list' : Option Chain) (frame : Heap Block) :
    Option CStr → Heap Block → Prop where
  | nothing : Gains list list' frame none frame
  | text (a : Addr) (text : CStr) (hdead : frame a = none) :
      Gains list list' frame (some text) (Function.update frame a (some (.text text)))
  | lost (a : Addr) (hdead : frame a = none) (hlist : list = none) (hlist' : list' = none) :
      Gains list list' frame none (Function.update frame a (some (.list none)))

/-- The call says that it found no memory. -/
def Failed : Call → Result → Prop
  | .add _ _, result => result = .status (-1)
  | .get _, result => result = .value none
  | _, _ => False

/-- The call did to the store what it is there for, or it failed: then it did nothing,
or it was an add and broke the list. -/
def Took (call : Call) (list : Option Chain) (result : Result) (list' : Option Chain) : Prop :=
  call.run (storeOf list) = (storeOf list', result) ∨
    Failed call result ∧ (storeOf list' = storeOf list ∨
      ∃ key value store, call = .add key value ∧ list' = some ⟨store, true⟩)

/-- The call on the heap returned what it returns in `mdclog.c` for these answers of
the allocator, and left the list that it leaves there. -/
structure Outcome (T : Type) [DecidableEq T] (call : Call) (list : Option Chain)
    (frame : Heap Block) (result : Result) (s' : Memory Block) (answers : List Bool)
    (list' : Option Chain) (frame' : Heap Block) : Prop where
  yields : ∀ (system : System) (t : T) (tv : Timeval) (severity : Severity),
    Yields system t (inMdclog system t tv severity call) list answers result list'
  took : Took call list result list'
  gains : Gains list list' frame (given result) frame'
  stands : Stands s' frame' list'

def Matches (T : Type) [DecidableEq T] (call : Call) (list : Option Chain) (frame : Heap Block)
    (result : Result) (s' : Memory Block) : Prop :=
  ∃ answers list' frame', Outcome T call list frame result s' answers list' frame'

section calls
variable {T : Type} [DecidableEq T] {s : Memory Block} {frame : Heap Block}
  {list : Option Chain}

theorem getList_matches (h : Stands s frame list)
    (hwhole : ∀ chain ∈ list, chain.broken = false) :
    WP True (fun _ => True) (fun p s' => (p = none ∧ list = none ∧
        ∃ frame', Gains none none frame none frame' ∧ Stands s' frame' none) ∨
      ∃ a cells, p = some a ∧ s'.slot = some a ∧ Owns s'.heap a cells frame ∧
        cells.map Cell.pair = (storeOf list).pairs) getList s := by
  obtain ⟨cells, hholds, hpairs, hnone⟩ := h.holds hwhole
  refine (getList_ends s).with_runs.post ?_
  rintro p s' - ⟨-, answers, hrun⟩
  rcases getList_runs hholds hrun with ⟨hslot, rfl, hwhy⟩ | ⟨a, rfl, hslot, hown, -⟩
  · obtain rfl : list = none := hnone hslot
    refine .inl ⟨rfl, rfl, ?_⟩
    cases h with
    | absent _ hheap =>
      rcases hwhy with ⟨-, rfl⟩ | ⟨-, a, hdead, rfl⟩
      · exact ⟨frame, .nothing, .absent hslot hheap⟩
      · rw [hheap] at hdead
        exact ⟨_, .lost a hdead rfl rfl, .absent hslot (by rw [← hheap]; rfl)⟩
  · exact .inr ⟨a, cells, rfl, hslot, hown, hpairs⟩

/-- The search in the list and the search in the heap. -/
theorem search_cells {store : Store} {cells : List Cell}
    (hpairs : cells.map Cell.pair = store.pairs) (key : CStr) :
    Chain.search ⟨store, false⟩ key =
      some ((cells.find? fun cell => key = cell.key).map Cell.value) := by
  rw [FormatStore.search_of_whole, Store.get, Option.bind_some, ← hpairs]
  congr 1
  simp only [get?, List.find?_map, Option.map_map, Function.comp_def, Cell.pair,
    eq_comm (a := key)]
  rfl

/-- A call that leaves the list whole and hands nothing out. -/
theorem matches_whole {call : Call} {answers : List Bool} {result : Result} {s' : Memory Block}
    {a : Addr} {cells : List Cell} {store : Store} (hgiven : given result = none)
    (htook : Took call list result (some ⟨store, false⟩))
    (hyields : ∀ (system : System) (t : T) (tv : Timeval) (severity : Severity),
      Yields system t (inMdclog system t tv severity call) list answers result
        (some ⟨store, false⟩))
    (hslot : s'.slot = some a) (hown : Owns s'.heap a cells frame)
    (hpairs : cells.map Cell.pair = store.pairs) : Matches T call list frame result s' :=
  ⟨answers, some ⟨store, false⟩, frame, hyields, htook, by rw [hgiven]; exact .nothing,
    .whole hslot hown hpairs⟩

theorem yields_add {system : System} {t : T} {tv : Timeval} {severity : Severity}
    {key value : CStr} (hclean : Clean key.bytes) {answers : List Bool} {r : Int}
    {list' : Option Chain}
    (h : Yields system t (Api.mdclogInternalPutMdc system t key value hclean) list answers r list') :
    Yields system t (inMdclog system t tv severity (.add (some key) (some value))) list answers
      (.status r) list' := by
  refine Yields.map Result.status ?_
  rw [Api.mdclogMdcAdd_clean system t hclean]
  exact yields_initLibrary.bind h

theorem putNew_done {key value : CStr} {a : Addr} {cells : List Cell} {answers : List Bool}
    {s' : Memory Block} (hown : Owns s.heap a cells frame) (hslot : s.slot = some a)
    (hrun : Runs (do
        let mdc ← allocEntry
        match mdc with
        | none => return -1
        | some _ =>
            let name ← strdup key
            setField mdc fun mdc => { mdc with key := name }
            addToList mdc (some a)
            setValue mdc value) s answers 0 s') :
    s'.slot = some a ∧
      ∃ cell, Owns s'.heap a (cell :: cells) frame ∧ cell.pair = (key, CStr.escaped value) := by
  rcases putNew_runs hown hslot hrun with ⟨-, hr, -⟩ | ⟨named, copied, rfl, -, hfailed⟩
  · cases hr
  · cases hboth : named && copied with
    | false => cases (hfailed hboth).1
    | true =>
      rw [Bool.and_eq_true] at hboth
      obtain ⟨rfl, rfl⟩ := hboth
      obtain ⟨-, hslot', -, hcell⟩ := (putNew_spec key value hown hslot).runs_ok hrun (by simp)
      exact ⟨hslot', hcell⟩

theorem putOld_done {value : CStr} {a : Addr} {front back : List Cell} {cell : Cell}
    {answers : List Bool} {s' : Memory Block}
    (hown : Owns s.heap a (front ++ cell :: back) frame) (hslot : s.slot = some a)
    (hrun : Runs (do
        free (← field (some cell.addr) Mdc.value)
        setValue (some cell.addr) value) s answers 0 s') :
    s'.slot = some a ∧ ∃ b, Owns s'.heap a
      (front ++ { cell with valueAddr := b, value := CStr.escaped value } :: back) frame := by
  obtain ⟨copied, rfl, -, hfailed⟩ := putOld_runs hown hslot hrun
  cases copied with
  | false => cases (hfailed rfl).1
  | true =>
    obtain ⟨-, hslot', -, hcell⟩ := (putOld_spec value hown hslot).runs_ok hrun (by simp)
    exact ⟨hslot', hcell⟩

theorem put_matches (key value : CStr) (hclean : Clean key.bytes) (h : Stands s frame list)
    (hwhole : ∀ chain ∈ list, chain.broken = false) :
    WP True (fun _ => True)
      (fun r s' => Matches T (.add (some key) (some value)) list frame (.status r) s')
      (mdclogInternalPutMdc key value) s := by
  unfold mdclogInternalPutMdc
  apply WP.bind
  refine (getList_matches h hwhole).post ?_
  rintro p s₁ - (⟨rfl, rfl, frame', hgains, hstands⟩ | ⟨a, cells, rfl, hslot, hown, hpairs⟩)
  · exact WP.pure trivial ⟨_, none, frame', fun system t tv severity =>
      yields_add hclean (yields_putNone hclean yields_getList_fails),
      .inr ⟨rfl, .inl rfl⟩, hgains, hstands⟩
  apply WP.bind
  refine (mdclogInternalSearchMdc_spec key hown hslot).mono (fun _ _ => trivial) ?_
  rintro - s₁ - ⟨rfl, rfl⟩
  have hsearch := search_cells hpairs key
  have hget : ∀ (system : System) (t : T), Yields system t _ list _ _ _ := fun system t =>
    yields_getList hwhole
  have hadd : (Call.add (some key) (some value)).run (storeOf list) =
      ((storeOf list).put key value hclean, .status 0) := by
    simp [Call.run, Store.add, hclean]
  have broke : ∀ store : Store, Took (.add (some key) (some value)) list (.status (-1))
      (some ⟨store, true⟩) := fun store => .inr ⟨rfl, .inr ⟨_, _, store, rfl, rfl⟩⟩
  cases hfind : cells.find? fun cell => key = cell.key with
  | none =>
    rw [hfind] at hsearch
    refine (putNew_tries key value hown hslot).with_runs.post ?_
    rintro r s₂ - ⟨rfl | ⟨rfl, rfl⟩ | ⟨rfl, hslot₂, hdangles⟩, answers, hrun⟩
    · obtain ⟨hslot₂, cell, hown₂, hpair⟩ := putNew_done hown hslot hrun
      refine matches_whole rfl (.inl hadd) (fun system t tv severity =>
        yields_add hclean (yields_putNew hclean (hget system t) hsearch true true true))
        hslot₂ hown₂ ?_
      have hnew := (withKey_of_none hfind).2
      rw [hpairs] at hnew
      rw [List.map_cons, hpair, hpairs]
      exact (put_of_notMem hnew).symm
    · exact matches_whole rfl (.inr ⟨rfl, .inl rfl⟩) (fun system t tv severity =>
        yields_add hclean (yields_putNew hclean (hget system t) hsearch false true true))
        hslot hown hpairs
    · exact ⟨_, _, frame, fun system t tv severity =>
        yields_add hclean (yields_putNew hclean (hget system t) hsearch true true false),
        broke _, .nothing, .broken hslot₂ hdangles⟩
  | some cell =>
    rw [hfind] at hsearch
    obtain ⟨rfl, front, back, rfl⟩ := find_middle hfind
    refine (putOld_tries value hown hslot).with_runs.post ?_
    have hdistinct := (storeOf list).distinct
    rw [← hpairs, List.map_append, List.map_cons] at hdistinct
    rintro r s₂ - ⟨rfl | ⟨rfl, hslot₂, hdangles⟩, answers, hrun⟩
    · obtain ⟨hslot₂, b, hown₂⟩ := putOld_done hown hslot hrun
      refine matches_whole rfl (.inl hadd) (fun system t tv severity =>
        yields_add hclean (yields_putOld hclean (hget system t) hsearch true)) hslot₂ hown₂ ?_
      change _ = put cell.key (CStr.escaped value) (storeOf list).pairs
      rw [← hpairs, List.map_append, List.map_cons, List.map_append, List.map_cons]
      exact (put_middle hdistinct).symm
    · refine ⟨_, _, frame, fun system t tv severity =>
        yields_add hclean (yields_putOld hclean (hget system t) hsearch false), broke _, .nothing,
        .broken hslot₂ ?_⟩
      have hfront : ((storeOf list).until cell.key).pairs = front.map Cell.pair := by
        change (storeOf list).pairs.takeWhile _ = _
        rw [← hpairs, List.map_append, List.map_cons, List.takeWhile_append_of_pos,
          List.takeWhile_cons_of_neg (by simp [Cell.pair]), List.append_nil]
        intro pair hpair
        simpa using (notMem_middle hdistinct).1 pair hpair
      change Dangles s₂.heap a ((storeOf list).until cell.key).pairs
      rw [hfront]
      exact hdangles

theorem add_matches (key value : Option CStr) (h : Stands s frame list)
    (hwhole : ∀ chain ∈ list, chain.broken = false) :
    WP True (fun _ => True) (Matches T (.add key value) list frame) (prog (.add key value)) s := by
  have hreject : ∀ key value : Option CStr, (∀ (system : System) (t : T),
      Yields system t (Api.mdclogMdcAdd system t key value) list [] (-1) list) →
      Matches T (.add key value) list frame (.status (-1)) s := fun key value hyields =>
    ⟨[], list, frame, fun system t tv severity => (hyields system t).map Result.status,
      .inr ⟨rfl, .inl rfl⟩, .nothing, h⟩
  apply WP.bind
  cases key with
  | none => exact WP.pure trivial (WP.pure trivial (hreject _ _ fun _ _ => .pure _))
  | some key =>
    cases value with
    | none => exact WP.pure trivial (WP.pure trivial (hreject _ _ fun _ _ => .pure _))
    | some value =>
      unfold mdclogMdcAdd
      by_cases hclean : Clean key.bytes
      · simp only [(clean_iff key).mpr hclean, Bool.false_eq_true, if_false]
        refine (put_matches (T := T) key value hclean h hwhole).post ?_
        intro r s' _ hmatch
        exact WP.pure trivial hmatch
      · have hspecial : mdclogInternalContainsSpecialCharacters key = true := by
          rw [← clean_iff] at hclean
          simpa using hclean
        simp only [hspecial, if_true]
        refine WP.pure trivial (WP.pure trivial (hreject _ _ fun system t => ?_))
        rw [Api.mdclogMdcAdd_special system t hclean]
        exact .pure _

theorem get_matches (key : Option CStr) (h : Stands s frame list)
    (hwhole : ∀ chain ∈ list, chain.broken = false) :
    WP True (fun _ => True) (Matches T (.get key) list frame) (prog (.get key)) s := by
  apply WP.bind
  cases key with
  | none =>
    exact WP.pure trivial (WP.pure trivial ⟨[], list, frame, fun system t tv severity =>
      Yields.map Result.value (.pure none), .inr ⟨rfl, .inl rfl⟩, .nothing, h⟩)
  | some key =>
    unfold mdclogMdcGet mdclogInternalSearchMdc
    apply WP.bind
    apply WP.bind
    refine (getList_matches h hwhole).post ?_
    rintro p s₁ - (⟨rfl, rfl, frame', hgains, hstands⟩ | ⟨a, cells, rfl, hslot, hown, hpairs⟩)
    · exact WP.pure trivial (WP.pure trivial (WP.pure trivial ⟨_, none, frame',
        fun system t tv severity => (yields_getNone yields_getList_fails).map Result.value,
        .inr ⟨rfl, .inl rfl⟩, hgains, hstands⟩))
    refine (searchList_spec key hown hslot).mono (fun _ _ => trivial) ?_
    rintro - s₁ - ⟨rfl, rfl⟩
    have hsearch := search_cells hpairs key
    cases hfind : cells.find? fun cell => key = cell.key with
    | none =>
      rw [hfind] at hsearch
      exact WP.pure trivial (WP.pure trivial (matches_whole rfl (.inr ⟨rfl, .inl rfl⟩)
        (fun system t tv severity =>
          (yields_getMissing (yields_getList hwhole) hsearch).map Result.value) hslot hown hpairs))
    | some cell =>
      rw [hfind] at hsearch
      have hmem := List.mem_of_find?_eq_some hfind
      have hvalue := (hown.spine.fields cell.node (List.mem_map_of_mem hmem)).2
      apply WP.bind
      apply wp_field trivial hvalue
      apply WP.bind
      apply wp_str trivial (hown.texts cell hmem).2
      refine WP.malloc trivial (fun b hfresh => ⟨trivial, ?_⟩) fun _ => ?_
      · have hown' := hown.set_frame (hown.fresh hfresh) (some (.text cell.value))
        have hread : Call.run (.get (some key)) (storeOf list) =
            (storeOf list, .value (some cell.value)) := by
          rw [FormatStore.search_of_whole, Option.some.injEq] at hsearch
          rw [Call.run, hsearch]
          rfl
        apply WP.bind
        apply wp_str trivial (s₁.set_heap_self b _)
        exact WP.pure trivial ⟨_, _, _, fun system t tv severity =>
          (yields_getFound (yields_getList hwhole) hsearch true).map Result.value,
          .inl hread, .text b _ (hown.frame_dead hfresh), .whole hslot hown' hpairs⟩
      · exact WP.pure trivial (matches_whole rfl (.inr ⟨rfl, .inl rfl⟩)
          (fun system t tv severity =>
            (yields_getFound (yields_getList hwhole) hsearch false).map Result.value)
          hslot hown hpairs)

/-- A call that returns nothing. -/
theorem yields_done {system : System} {t : T} {p : Api.Program T Unit} {answers : List Bool}
    {list' : Option Chain} (h : Yields system t p list answers () list') :
    Yields system t (p >>= fun _ => pure Result.done) list answers .done list' :=
  h.map fun _ => Result.done

theorem remove_matches (key : Option CStr) (h : Stands s frame list)
    (hwhole : ∀ chain ∈ list, chain.broken = false) :
    WP True (fun _ => True) (Matches T (.remove key) list frame) (prog (.remove key)) s := by
  apply WP.bind
  cases key with
  | none =>
    exact WP.pure trivial (WP.pure trivial ⟨[], list, frame, fun system t tv severity =>
      yields_done (.pure ()), .inl rfl, .nothing, h⟩)
  | some key =>
    unfold mdclogMdcRemove mdclogInternalRmMdc mdclogInternalSearchMdc
    apply WP.bind
    apply WP.bind
    refine (getList_matches h hwhole).post ?_
    rintro p s₁ - (⟨rfl, rfl, frame', hgains, hstands⟩ | ⟨a, cells, rfl, hslot, hown, hpairs⟩)
    · exact WP.pure trivial (WP.pure trivial (WP.pure trivial ⟨_, none, frame',
        fun system t tv severity => yields_done (yields_removeNone yields_getList_fails),
        .inl rfl, hgains, hstands⟩))
    refine (searchList_spec key hown hslot).mono (fun _ _ => trivial) ?_
    rintro - s₁ - ⟨rfl, rfl⟩
    have hsearch := search_cells hpairs key
    cases hfind : cells.find? fun cell => key = cell.key with
    | none =>
      rw [hfind] at hsearch
      have hsame : (storeOf list).remove (some key) = storeOf list := by
        rw [FormatStore.search_of_whole, Option.some.injEq] at hsearch
        exact Store.ext (erase_of_get?_none hsearch)
      exact WP.pure trivial (WP.pure trivial (matches_whole rfl
        (.inl (by rw [Call.run, hsame]; rfl)) (fun system t tv severity =>
          yields_done (yields_removeMissing (yields_getList hwhole) hsearch)) hslot hown hpairs))
    | some cell =>
      rw [hfind] at hsearch
      obtain ⟨rfl, front, back, rfl⟩ := find_middle hfind
      apply WP.bind
      refine (getList_of_slot (hown.slot_listed hslot) hslot).mono (fun _ _ => trivial) ?_
      rintro - s₂ - ⟨rfl, rfl⟩
      refine (rmFromList_spec hown fun p hp => by simpa [hslot] using hp.symm).mono
        (fun _ _ => trivial) ?_
      rintro - s₃ - ⟨hslot₃, hown₃, -⟩
      refine WP.pure trivial (matches_whole rfl (.inl rfl) (fun system t tv severity =>
        yields_done (yields_removeFound (yields_getList hwhole) hsearch))
        (hslot₃.trans hslot) hown₃ ?_)
      have hdistinct := (storeOf list).distinct
      rw [← hpairs] at hdistinct
      change _ = erase cell.key (storeOf list).pairs
      rw [← hpairs, ← withoutKey_middle hdistinct, erase, List.filter_map]
      simp only [Function.comp_def, Cell.pair, ne_comm]

theorem clean_matches (h : Stands s frame list)
    (hwhole : ∀ chain ∈ list, chain.broken = false) :
    WP True (fun _ => True) (Matches T .clean list frame) (prog .clean) s := by
  apply WP.bind
  unfold mdclogMdcClean mdclogInternalCleanMdclist
  apply WP.bind
  refine (getList_matches h hwhole).post ?_
  rintro p s₁ - (⟨rfl, rfl, frame', hgains, hstands⟩ | ⟨a, cells, rfl, hslot, hown, hpairs⟩)
  · exact WP.pure trivial (WP.pure trivial ⟨_, none, frame', fun system t tv severity =>
      yields_done (yields_cleanNone yields_getList_fails), .inl rfl, hgains, hstands⟩)
  refine (emptyList_spec hown fun p hp => by simpa [hslot] using hp.symm).mono
    (fun _ _ => trivial) ?_
  rintro - s₂ - ⟨hslot₂, hown₂, -⟩
  exact WP.pure trivial (matches_whole rfl (.inl rfl) (fun system t tv severity =>
    yields_done (yields_cleanList (yields_getList hwhole))) (hslot₂.trans hslot) hown₂ rfl)

theorem exit_matches (h : Stands s frame list)
    (hwhole : ∀ chain ∈ list, chain.broken = false) :
    WP True (fun _ => True) (Matches T .exit list frame) (prog .exit) s := by
  obtain ⟨cells, hholds, -, -⟩ := h.holds hwhole
  apply WP.bind
  refine (threadExit_spec hholds).mono (fun _ _ => trivial) ?_
  rintro - s' - ⟨hslot, hheap, -⟩
  exact WP.pure trivial ⟨_, none, frame, fun system t tv severity =>
    yields_done (yields_setList none), .inl rfl, .nothing, .absent hslot hheap⟩

theorem write_matches (fits : List (CStr × CStr) → Bool) (h : Stands s frame list)
    (hwhole : ∀ chain ∈ list, chain.broken = false) :
    WP True (fun _ => True) (Matches T (.write fits) list frame) (prog (.write fits)) s := by
  apply WP.bind
  unfold handOver mdclogInternalGetFirstMdc
  apply WP.bind
  apply WP.bind
  refine (getList_matches h hwhole).post ?_
  rintro p s₁ - (⟨rfl, rfl, frame', hgains, hstands⟩ | ⟨a, cells, rfl, hslot, hown, hpairs⟩)
  · refine WP.pure trivial (WP.loop trivial (WP.pure trivial (WP.pure trivial ?_)))
    exact ⟨_, none, frame', fun system t tv severity =>
      Yields.map _ (yields_firstNone yields_getList_fails), .inl rfl, hgains, hstands⟩
  apply wp_listHead trivial hown.spine.linked.1
  rw [map_node_addr]
  -- `front` has been handed over, `back` is still to come
  suffices hloop : ∀ front back, cells = front ++ back → WP True (fun _ => True)
      (fun pairs s' => pairs = handed fits (front.map Cell.pair) (back.map Cell.pair) ∧ s' = s₁)
      (loop _ ((back.map Cell.addr).head?, front.map Cell.pair)) s₁ by
    refine (hloop [] cells rfl).post ?_
    rintro pairs s₂ - ⟨rfl, rfl⟩
    rw [hpairs]
    exact WP.pure trivial (matches_whole rfl (.inl rfl) (fun system t tv severity =>
      Yields.map _ (yields_firstList (yields_getList hwhole))) hslot hown hpairs)
  intro front back hsplit
  induction back generalizing front with
  | nil => exact WP.loop trivial (WP.pure trivial ⟨rfl, rfl⟩)
  | cons cell back ih =>
    subst hsplit
    have hmem : cell ∈ front ++ cell :: back := by simp
    have hfields := hown.spine.fields cell.node (List.mem_map_of_mem hmem)
    have htexts := hown.texts cell hmem
    apply WP.loop trivial
    apply WP.bind
    apply wp_field trivial hfields.1
    apply WP.bind
    apply wp_str trivial htexts.1
    apply WP.bind
    apply wp_field trivial hfields.2
    apply WP.bind
    apply wp_str trivial htexts.2
    by_cases hfits : fits (front.map Cell.pair ++ [(cell.key, cell.value)]) = true
    · rw [if_pos hfits]
      apply WP.bind
      apply wp_field trivial hown.next_eq
      apply WP.pure trivial
      have hrest := ih (front ++ [cell]) (by simp)
      rw [List.map_append, List.map_singleton] at hrest
      rw [List.map_cons, handed, if_pos (show fits (front.map Cell.pair ++ [cell.pair]) from hfits)]
      exact hrest
    · rw [if_neg hfits]
      apply WP.pure trivial
      rw [List.map_cons, handed,
        if_neg (show ¬fits (front.map Cell.pair ++ [cell.pair]) from hfits)]
      exact ⟨rfl, rfl⟩

/-- Every public call, and the end of a thread, from a list that is whole. -/
theorem call_matches (call : Call) (hcall : call ≠ .destroy) (h : Stands s frame list)
    (hwhole : ∀ chain ∈ list, chain.broken = false) :
    WP True (fun _ => True) (Matches T call list frame) (prog call) s := by
  cases call with
  | add key value => exact add_matches key value h hwhole
  | get key => exact get_matches key h hwhole
  | remove key => exact remove_matches key h hwhole
  | clean => exact clean_matches h hwhole
  | write fits => exact write_matches fits h hwhole
  | exit => exact exit_matches h hwhole
  | destroy => contradiction

end calls

end Mdclog.ChainRefinement
