import Mdclog.Foundation.Interleaving
import Mdclog.MdcRefinement

/-! Whole runs of the MDC calls: by one thread, and by any number of threads
whose steps mix in any order. -/
namespace Mdclog.MdcRuns
open Foundation.HeapProgram Foundation.Interleaving Foundation.OrderedMap
open CString Escape MdcList MdcHeap MdcStore MdcSpec MdcRefinement

abbrev Entry := Record Block Call Result

abbrev State (T : Type) := Config T Block Call Result

def callsOf (history : List Entry) : List Call := history.map Record.call

def resultsOf (history : List Entry) : List Result := history.map Record.result

/-- Each call of the history found the heap standing for the store that the
calls before it left, and did there what it does on the store. -/
def Explained : Store → List Entry → Prop
  | _, [] => True
  | store, entry :: history =>
      (∃ cells, Represents entry.before store cells ∧
        Does entry.call store cells entry.before entry.result entry.after) ∧
      Explained (entry.call.run store).1 history

theorem explained_middle {store : Store} {history later : List Entry} {entry : Entry} :
    Explained store (history ++ entry :: later) ↔ Explained store history ∧
      (∃ cells, Represents entry.before (after store (callsOf history)) cells ∧
        Does entry.call (after store (callsOf history)) cells entry.before entry.result
          entry.after) ∧
      Explained (entry.call.run (after store (callsOf history))).1 later := by
  induction history generalizing store with
  | nil => simp [Explained, after, callsOf]
  | cons first history ih =>
    rw [List.cons_append, Explained, Explained, ih, and_assoc]
    rfl

/-- The results of the calls on the store. -/
def resultsFrom : Store → List Call → List Result
  | _, [] => []
  | store, call :: calls => (call.run store).2 :: resultsFrom (call.run store).1 calls

theorem Explained.results {store : Store} {history : List Entry} (h : Explained store history) :
    resultsOf history = resultsFrom store (callsOf history) := by
  induction history generalizing store with
  | nil => rfl
  | cons entry history ih =>
    obtain ⟨⟨cells, -, hresult, -⟩, hrest⟩ := h
    have htail := ih hrest
    simp only [resultsOf, callsOf, List.map_cons, resultsFrom] at htail ⊢
    rw [htail, hresult]

/-- What the finished calls of a thread have made of its memory. -/
def Good (history : List Entry) (s : Memory Block) : Prop :=
  Explained .empty history ∧ ∃ cells, Represents s (after .empty (callsOf history)) cells

theorem after_append (store : Store) (calls : List Call) (call : Call) :
    after store (calls ++ [call]) = (call.run (after store calls)).1 := by
  simp [after]

theorem good_start : Good [] ⟨fun _ => none, none, []⟩ :=
  ⟨trivial, [], ⟨fun _ => none, .inl ⟨rfl, rfl, rfl⟩, by simp [OnlyTexts]⟩, rfl⟩

theorem Good.extend {history : List Entry} {s s' : Memory Block} {cells : List Cell} {call : Call}
    {result : Result} (h : Explained .empty history)
    (hbefore : Represents { s with freed := [] } (after .empty (callsOf history)) cells)
    (hdoes : Does call (after .empty (callsOf history)) cells { s with freed := [] } result s') :
    Good (history ++ [⟨call, result, { s with freed := [] }, s'⟩]) s' := by
  obtain ⟨-, -, cells', hafter, -⟩ := id hdoes
  refine ⟨explained_middle.mpr ⟨h, ⟨cells, hbefore, hdoes⟩, trivial⟩, cells', ?_⟩
  rw [callsOf, List.map_append, List.map_singleton, after_append]
  exact hafter

/-- A thread makes public calls, and none after its end. -/
def mayCall (history : List Entry) (call : Call) : Prop :=
  call ≠ .destroy ∧ ∀ entry ∈ history, entry.call ≠ .exit

theorem represents_reset {s : Memory Block} {store : Store} {cells : List Cell}
    (h : Represents s store cells) : Represents { s with freed := [] } store cells :=
  ⟨h.holds, h.pairs⟩

/-- Any calls, of one thread alone. -/
theorem contract_any :
    Contract False prog (fun (_ : List Entry) _ => True) (fun _ => True) Good where
  start := good_start
  good_inv _ _ _ := trivial
  call history s call hgood _ := by
    obtain ⟨hexplained, cells, hrep⟩ := hgood
    have hbefore := represents_reset hrep
    by_cases hcall : call = .destroy
    · subst hcall
      exact (destroy_does hbefore rfl).post fun _ _ _ hdoes => .extend hexplained hbefore hdoes
    · exact (call_does call hcall hbefore rfl).mono (fun _ _ => trivial)
        fun _ _ _ hdoes => .extend hexplained hbefore hdoes

/-- The public calls, with the list whole at every step. -/
theorem contract_public : Contract False prog mayCall Listed Good where
  start := good_start
  good_inv _ _ hgood := by
    obtain ⟨-, cells, hrep⟩ := hgood
    obtain ⟨frame, hholds, -⟩ := hrep.holds
    exact hholds.listed
  call history s call hgood hmay := by
    obtain ⟨hexplained, cells, hrep⟩ := hgood
    have hbefore := represents_reset hrep
    exact (call_does call hmay.1 hbefore rfl).post
      fun _ _ _ hdoes => .extend hexplained hbefore hdoes

/-- The finished calls of every thread are explained, also while it is in the
next one: that one can be brought to its end. -/
theorem reachable_explained {T : Type} [DecidableEq T] {may : List Entry → Call → Prop}
    {inv : Memory Block → Prop} (hcontract : Contract False prog may inv Good) {G : State T}
    (h : Reachable False prog may G) (t : T) : Explained .empty (G.thread t).history := by
  cases hrun : (G.thread t).running with
  | none => exact ((reachable_sound hcontract h t).idle hrun).1
  | some run =>
    obtain ⟨G', hreach, hidle, ⟨entry, -, hhistory⟩, -⟩ := reachable_completes hcontract h hrun
    have hgood := ((reachable_sound hcontract hreach t).idle hidle).1
    rw [hhistory] at hgood
    exact (explained_middle.mp hgood).1

theorem handed_all (front pairs : List (CStr × CStr)) :
    handed (fun _ => true) front pairs = front ++ pairs := by
  induction pairs generalizing front with
  | nil => simp [handed]
  | cons pair pairs ih => simp [handed, ih]

/-! One thread. -/

/-- The pointers of the list in the slot: the head has no `prev`, a node's
successor points back to it, and no node is visited twice. -/
def WellLinked (s : Memory Block) (addrs : List Addr) : Prop :=
  ∀ list, s.slot = some list → s.heap list = some (.list addrs.head?) ∧ addrs.Nodup ∧
    (∀ a ∈ addrs.head?, prevAt s.heap a = some none) ∧
    ∀ a ∈ addrs, ∃ q, nextAt s.heap a = some q ∧
      ∀ b ∈ q, b ∈ addrs ∧ prevAt s.heap b = some (some a)

theorem wellLinked_of_represents {s : Memory Block} {store : Store} {cells : List Cell}
    (h : Represents s store cells) : WellLinked s (cells.map Cell.addr) := by
  intro list hslot
  obtain ⟨frame, ⟨hnone, -, -⟩ | ⟨list', hslot', hown⟩, -⟩ := h.holds
  · simp [hnone] at hslot
  · rw [hslot', Option.some.injEq] at hslot
    subst hslot
    have hlinked := hown.spine.linked
    have hbackward := hown.spine.backward
    rw [map_node_addr] at hlinked hbackward
    refine ⟨hlinked.1, hlinked.2.nodup, ?_, fun a ha => ?_⟩
    · intro a ha
      cases cells with
      | nil => simp at ha
      | cons cell cells =>
        simp only [List.map_cons, List.head?_cons, Option.mem_some_iff] at ha
        subst ha
        exact hbackward.1
    · obtain ⟨q, hq⟩ := hlinked.2.live ha
      refine ⟨q, hq, fun b hb => ?_⟩
      rw [Option.mem_def.mp hb] at hq
      exact Foundation.LinkedList.successor hlinked.2 hbackward ha hq

/-- Over every run of calls by one thread the list in the heap stands for the
insertion-ordered map that the same calls make. -/
theorem mdcList_refines_map {S : State Unit}
    (h : Reachable False prog (fun _ _ => True) S) :
    let history := (S.thread ()).history
    let store := after .empty (callsOf history)
    ¬Faults False S () ∧
    Acc (fun S₂ S₁ => Works False prog (fun _ _ => True) () S₁ S₂) S ∧
    Explained .empty history ∧
    ((S.thread ()).running = none → ∃ cells,
      Represents (S.part ()) store cells ∧ WellLinked (S.part ()) (cells.map Cell.addr) ∧
      (keys store.pairs).Nodup ∧
      (∀ pair ∈ store.pairs, mdclogInternalContainsSpecialCharacters pair.1 = false) ∧
      WP False Listed (fun pairs _ => pairs = store.pairs) (handOver fun _ => true) (S.part ())) := by
  refine ⟨reachable_safe contract_any h (), reachable_halts contract_any h (),
    reachable_explained contract_any h (), fun hidle => ?_⟩
  obtain ⟨-, cells, hrep⟩ := (reachable_sound contract_any h ()).idle hidle
  obtain ⟨frame, hholds, -⟩ := hrep.holds
  refine ⟨cells, hrep, wellLinked_of_represents hrep, Store.distinct _, fun pair hpair => ?_, ?_⟩
  · exact (clean_iff pair.1).mpr (Store.clean _ pair hpair)
  · refine (handOver_spec (fun _ => true) hholds).post ?_
    rintro - s' - ⟨rfl, -, -⟩
    rw [handed_all, List.nil_append, hrep.pairs]

/-- A run that adds, overwrites, reads and removes. -/
theorem mdcList_refines_map_run :
    ∃ S : State Unit, callsOf (S.thread ()).history =
        [.add (some (.ofString "k")) (some (.ofString "v\n")),
          .add (some (.ofString "k")) (some (.ofString "\"")), .get (some (.ofString "k")),
          .remove (some (.ofString "k")), .clean, .destroy] ∧
      Reachable False prog (fun _ _ => True) S ∧ (S.thread ()).running = none ∧
      Explained .empty (S.thread ()).history := by
  obtain ⟨S, hreach, hidle, hcalls, -⟩ := exists_run contract_any (G := Config.initial) (t := ())
    .refl rfl
    [.add (some (.ofString "k")) (some (.ofString "v\n")),
      .add (some (.ofString "k")) (some (.ofString "\"")), .get (some (.ofString "k")),
      .remove (some (.ofString "k")), .clean, .destroy] fun _ _ _ _ => trivial
  exact ⟨S, hcalls, hreach, hidle, (mdcList_refines_map hreach).2.2.1⟩

/-! Any number of threads. -/

section threads
variable {T : Type} [DecidableEq T] {G : State T}

/-- A block that a thread reaches through its own list is its own. -/
theorem nodes_of_part {t : T} {list : Addr} {addrs : List Addr}
    (h : Nodes (G.part t).heap list addrs) : Nodes (plain G.heap) list addrs := by
  have hblock : ∀ {a block}, (G.part t).heap a = some block → plain G.heap a = some block := by
    intro a block ha
    simp [plain, plain_of_owned (show owned t G.heap a = some block from ha)]
  refine ⟨hblock h.1, h.2.congr fun a ha => ?_⟩
  obtain ⟨q, hq⟩ := h.2.live ha
  obtain ⟨mdc, hmdc, -⟩ := fieldAt_eq_some.mp hq
  rw [nextAt, fieldAt_entry _ hmdc, fieldAt_entry _ (hblock hmdc)]

theorem nodes_unique {heap : Heap Block} {list : Addr} {addrs addrs' : List Addr}
    (h : Nodes heap list addrs) (h' : Nodes heap list addrs') : addrs = addrs' := by
  have hhead : addrs.head? = addrs'.head? := by
    have heq := h.1.symm.trans h'.1
    simpa using heq
  have hforward := h'.2
  rw [← hhead] at hforward
  exact h.2.unique hforward

theorem Explained.mem {store : Store} {history : List Entry} {entry : Entry}
    (h : Explained store history) (hentry : entry ∈ history) :
    ∃ store cells, Represents entry.before store cells ∧
      Does entry.call store cells entry.before entry.result entry.after := by
  induction history generalizing store with
  | nil => simp at hentry
  | cons first history ih =>
    rcases List.mem_cons.mp hentry with rfl | hentry
    · exact ⟨store, h.1⟩
    · exact ih h.2 hentry

/-- The list in a thread's slot, at any step of any thread, consists of blocks
that the thread allocated itself. -/
theorem reachable_list (h : Reachable False prog mayCall G) {t : T} {list : Addr}
    (hslot : (G.thread t).slot = some list) : ∃ addrs, Nodes (plain G.heap) list addrs ∧
      ∀ a ∈ list :: addrs, ∃ block, G.heap a = some (t, block) := by
  have hlisted := (reachable_sound contract_public h t).part_inv contract_public
  obtain ⟨addrs, hnodes⟩ := hlisted list hslot
  refine ⟨addrs, nodes_of_part hnodes, fun a ha => ?_⟩
  have hlive : ∃ block, (G.part t).heap a = some block := by
    rcases List.mem_cons.mp ha with rfl | ha
    · exact ⟨_, hnodes.1⟩
    · obtain ⟨q, hq⟩ := hnodes.2.live ha
      obtain ⟨mdc, hmdc, -⟩ := fieldAt_eq_some.mp hq
      exact ⟨_, hmdc⟩
  obtain ⟨block, hblock⟩ := hlive
  exact ⟨block, plain_of_owned hblock⟩

/-- The lists of different threads share nothing, the end of a thread frees its
own list and nothing else, and each thread gets the results it would get alone. -/
theorem threads_isolated (h : Reachable False prog mayCall G) :
    (∀ t, ¬Faults False G t) ∧
    (∀ t u list list' addrs addrs', t ≠ u → (G.thread t).slot = some list →
      (G.thread u).slot = some list' → Nodes (plain G.heap) list addrs →
      Nodes (plain G.heap) list' addrs' → (list :: addrs).Disjoint (list' :: addrs')) ∧
    (∀ t list, (G.thread t).slot = some list → ∃ addrs, Nodes (plain G.heap) list addrs) ∧
    (∀ t, ∀ entry ∈ (G.thread t).history, entry.call = .exit →
      ∃ store cells, Represents entry.before store cells ∧
        entry.after.freed.Perm (entry.before.slot.toList ++ cells.flatMap Cell.blocks) ∧
        Represents entry.after .empty []) ∧
    ∀ t, Reachable False prog mayCall (G.solo t) ∧
      ∀ S : State Unit, Reachable False prog mayCall S →
        callsOf (S.thread ()).history = callsOf (G.thread t).history →
        resultsOf (S.thread ()).history = resultsOf (G.thread t).history := by
  refine ⟨reachable_safe contract_public h, ?_, ?_, ?_, fun t => ⟨?_, ?_⟩⟩
  · intro t u list list' addrs addrs' hne hslot hslot' hnodes hnodes'
    obtain ⟨_, hown, htag⟩ := reachable_list h hslot
    obtain ⟨_, hown', htag'⟩ := reachable_list h hslot'
    rw [← nodes_unique hnodes hown] at htag
    rw [← nodes_unique hnodes' hown'] at htag'
    intro a ha ha'
    obtain ⟨block, hblock⟩ := htag a ha
    obtain ⟨block', hblock'⟩ := htag' a ha'
    rw [hblock, Option.some.injEq, Prod.mk.injEq] at hblock'
    exact hne hblock'.1
  · intro t list hslot
    obtain ⟨addrs, hnodes, -⟩ := reachable_list h hslot
    exact ⟨addrs, hnodes⟩
  · intro t entry hentry hexit
    obtain ⟨store, cells, hbefore, hdoes⟩ := (reachable_explained contract_public h t).mem hentry
    rw [hexit] at hdoes
    obtain ⟨-, hfreed, cells', hafter, -⟩ := hdoes
    have hnil : cells' = [] := List.map_eq_nil_iff.mp hafter.pairs
    rw [hnil] at hafter
    exact ⟨store, cells, hbefore, hfreed, hafter⟩
  · exact reachable_solo contract_public h t
  · intro S hS hcalls
    rw [(reachable_explained contract_public hS ()).results,
      (reachable_explained contract_public h t).results, hcalls]

/-- Two threads with the same key, of which the first ends. -/
theorem threads_isolated_run :
    ∃ G : State Bool, Reachable False prog mayCall G ∧
      callsOf (G.thread false).history =
        [.add (some (.ofString "k")) (some (.ofString "v")), .get (some (.ofString "k"))] ∧
      callsOf (G.thread true).history =
        [.add (some (.ofString "k")) (some (.ofString "w")), .exit] ∧
      ∀ t, Reachable False prog mayCall (G.solo t) := by
  have hmay : ∀ (value : CStr) (last : Call) (history : List Entry) (call : Call)
      (later : List Call), last ≠ .destroy →
      [.add (some (.ofString "k")) (some value), last] =
        history.map Record.call ++ call :: later → mayCall history call := by
    intro value last history call later hlast heq
    rcases history with - | ⟨first, - | ⟨second, history⟩⟩
    · simp only [List.map_nil, List.nil_append, List.cons.injEq] at heq
      rw [← heq.1]
      exact ⟨by simp, by simp⟩
    · simp only [List.map_cons, List.map_nil, List.cons_append, List.nil_append,
        List.cons.injEq] at heq
      rw [← heq.2.1]
      exact ⟨hlast, by simp [← heq.1]⟩
    · simp at heq
  obtain ⟨G₁, hreach₁, hidle₁, hcalls₁, hothers₁⟩ := exists_run contract_public
    (G := Config.initial) (t := false) .refl rfl
    [.add (some (.ofString "k")) (some (.ofString "v")), .get (some (.ofString "k"))]
    fun history call later heq => hmay _ _ history call later (by simp) heq
  have htrue := hothers₁ true (by decide)
  obtain ⟨G₂, hreach₂, hidle₂, hcalls₂, hothers₂⟩ := exists_run contract_public
    (t := true) hreach₁ (by rw [htrue]; rfl)
    [.add (some (.ofString "k")) (some (.ofString "w")), .exit]
    fun history call later heq => hmay _ .exit history call later (by simp) (by
      rw [htrue] at heq
      exact heq)
  refine ⟨G₂, hreach₂, ?_, ?_, fun t => ((threads_isolated hreach₂).2.2.2.2 t).1⟩
  · rw [hothers₂ false (by decide)]
    exact hcalls₁
  · rw [htrue] at hcalls₂
    exact hcalls₂

end threads

end Mdclog.MdcRuns
