import Mdclog.ChainRefinement
import Mdclog.Foundation.Trace
import Mdclog.MdcRuns

/-! Whole runs of the MDC calls of any number of threads, mixed in any order, where
any allocation may fail. -/
namespace Mdclog.ChainRuns
open Foundation.HeapProgram Foundation.Interleaving Foundation.OrderedMap Foundation.Trace
open CString Escape JsonFormat MdcList MdcHeap MdcStore MdcSpec MdcRefinement MdcRuns
open FailedAdd ChainHeap ChainRefinement
open Api (Chain Library System)

variable {T : Type} [DecidableEq T]

/-- A call on a whole list that did what it does in `mdclog.c`. -/
def Acts (T : Type) [DecidableEq T] (entry : Entry) (list list' : Option Chain) : Prop :=
  (∀ chain ∈ list, chain.broken = false) ∧ Took entry.call list entry.result list' ∧
    ∃ answers, ∀ (system : System) (t : T) (tv : Timeval) (severity : Severity),
      Yields system t (inMdclog system t tv severity entry.call) list answers entry.result list'

/-- Each call of the history acts on the list that the calls before it left. -/
def Explained (T : Type) [DecidableEq T] : Option Chain → List Entry → Option Chain → Prop
  | list, [], list' => list' = list
  | list, entry :: history, list' => ∃ mid, Acts T entry list mid ∧ Explained T mid history list'

theorem explained_append {list list' : Option Chain} {history later : List Entry} :
    Explained T list (history ++ later) list' ↔
      ∃ mid, Explained T list history mid ∧ Explained T mid later list' := by
  induction history generalizing list with
  | nil => simp [Explained]
  | cons first history ih =>
    simp only [List.cons_append, Explained, ih]
    constructor
    · rintro ⟨mid, hfirst, last, hrest, hlater⟩
      exact ⟨last, ⟨mid, hfirst, hrest⟩, hlater⟩
    · rintro ⟨last, ⟨mid, hfirst, hrest⟩, hlater⟩
      exact ⟨mid, hfirst, last, hrest, hlater⟩

theorem explained_snoc {list list' : Option Chain} {history : List Entry} {entry : Entry} :
    Explained T list (history ++ [entry]) list' ↔
      ∃ mid, Explained T list history mid ∧ Acts T entry mid list' := by
  simp [explained_append, Explained]

/-- The texts that the calls of a thread handed out. -/
def handedOut (history : List Entry) : List CStr :=
  history.filterMap fun entry => given entry.result

/-- The calls that began and ended without a list. -/
def listless (history : List Entry) : Nat :=
  history.countP fun entry => entry.before.slot.isNone && entry.after.slot.isNone

/-- The blocks of `frame` are these texts and the empty lists that were lost, each in a
block of its own. -/
structure Accounts (frame : Heap Block) (addrs lost : List Addr) (texts : List CStr) : Prop where
  nodup : (addrs ++ lost).Nodup
  live : ∀ a, frame a ≠ none ↔ a ∈ addrs ++ lost
  texts : addrs.map frame = texts.map fun text => some (.text text)
  lost : ∀ a ∈ lost, frame a = some (.list none)

/-- A new block changes no other. -/
theorem map_update_fresh {frame : Heap Block} {addrs : List Addr} {a : Addr} (ha : a ∉ addrs)
    (block : Block) : addrs.map (Function.update frame a (some block)) = addrs.map frame := by
  refine List.map_congr_left fun c hc => Function.update_of_ne ?_ _ _
  rintro rfl
  exact ha hc

theorem live_update_fresh {frame : Heap Block} {addrs addrs' : List Addr} {a : Addr}
    (hlive : ∀ c, frame c ≠ none ↔ c ∈ addrs) (hmem : ∀ c, c ∈ addrs' ↔ c = a ∨ c ∈ addrs)
    (block : Block) (c : Addr) :
    Function.update frame a (some block) c ≠ none ↔ c ∈ addrs' := by
  rw [hmem c]
  by_cases hc : c = a
  · simp [hc]
  · rw [Function.update_of_ne hc, hlive]
    simp [hc]

theorem Accounts.gain {list list' : Option Chain} {frame frame' : Heap Block}
    {addrs lost : List Addr} {texts : List CStr} {text : Option CStr}
    (h : Accounts frame addrs lost texts) (hgain : Gains list list' frame text frame') :
    ∃ addrs' lost', Accounts frame' addrs' lost' (texts ++ text.toList) ∧
      (lost' = lost ∨ list = none ∧ list' = none ∧ lost'.length = lost.length + 1) := by
  obtain ⟨hnodup, hlive, htexts, hlost⟩ := h
  have hfresh : ∀ {a}, frame a = none → a ∉ addrs ++ lost := fun hdead hmem =>
    (hlive _).mpr hmem hdead
  cases hgain with
  | nothing => exact ⟨addrs, lost, ⟨hnodup, hlive, by simpa using htexts, hlost⟩, .inl rfl⟩
  | text a text hdead =>
    have hnew := hfresh hdead
    refine ⟨addrs ++ [a], lost, ⟨?_, ?_, ?_, fun c hc => ?_⟩, .inl rfl⟩
    · rw [List.append_assoc, List.singleton_append, List.nodup_middle, List.nodup_cons]
      exact ⟨hnew, hnodup⟩
    · refine live_update_fresh hlive (fun c => ?_) _
      simp only [List.mem_append, List.mem_singleton]
      tauto
    · rw [List.map_append, List.map_singleton, Function.update_self, Option.toList_some,
        List.map_append, List.map_singleton, ← htexts,
        map_update_fresh fun hmem => hnew (List.mem_append_left _ hmem)]
    · rw [Function.update_of_ne, hlost c hc]
      rintro rfl
      exact hnew (List.mem_append_right _ hc)
  | lost a hdead hlist hlist' =>
    have hnew := hfresh hdead
    refine ⟨addrs, a :: lost, ⟨?_, ?_, ?_, ?_⟩, .inr ⟨hlist, hlist', rfl⟩⟩
    · rw [List.nodup_middle, List.nodup_cons]
      exact ⟨hnew, hnodup⟩
    · refine live_update_fresh hlive (fun c => ?_) _
      simp only [List.mem_append, List.mem_cons]
      tauto
    · rw [map_update_fresh (fun hmem => hnew (List.mem_append_left _ hmem)), htexts]
      simp
    · intro c hc
      rcases List.mem_cons.mp hc with rfl | hold
      · exact Function.update_self ..
      · rw [Function.update_of_ne, hlost c hold]
        rintro rfl
        exact hnew (List.mem_append_right _ hold)

/-- A thread makes public calls, and none after its end or on a list that a failed
call has left with a dangling pointer. -/
def mayGo (history : List Entry) (call : Call) : Prop :=
  mayCall history call ∧ ∀ entry ∈ history, Listed entry.after

/-- What the finished calls of a thread have made of its memory. -/
structure Good (T : Type) [DecidableEq T] (history : List Entry) (s : Memory Block)
    (list : Option Chain) (frame : Heap Block) (addrs lost : List Addr) : Prop where
  explained : Explained T none history list
  stands : Stands s frame list
  accounts : Accounts frame addrs lost (handedOut history)
  fewLost : lost.length ≤ listless history
  ended : (∃ entry ∈ history, entry.call = .exit) → s.slot = none
  broken : ∀ chain ∈ list, chain.broken = true → ∃ entry ∈ history, ¬Listed entry.after

theorem not_listed {s : Memory Block} {list : Addr} {pairs : List (CStr × CStr)}
    (hslot : s.slot = some list) (h : Dangles s.heap list pairs) : ¬Listed s := by
  intro hlisted
  obtain ⟨addrs, hhead, hforward⟩ := hlisted list hslot
  obtain ⟨head, dead, hlist, hwalk, hdead⟩ := h
  rw [hlist, Option.some.injEq, Block.list.injEq] at hhead
  rw [← hhead] at hforward
  clear hlist hhead
  -- the walk follows the links up to the freed entry
  induction pairs generalizing head addrs with
  | nil =>
    obtain rfl : head = some dead := hwalk
    cases addrs with
    | nil => cases hforward
    | cons a addrs =>
      obtain ⟨ha, q, hq, -⟩ := hforward
      cases ha
      simp [fieldAt, hdead] at hq
  | cons pair pairs ih =>
    obtain ⟨a, next, rfl, -, hnext, hwalk⟩ := hwalk
    cases addrs with
    | nil => cases hforward
    | cons b addrs =>
      obtain ⟨hb, q, hq, hrest⟩ := hforward
      cases hb
      rw [hnext, Option.some.injEq] at hq
      subst hq
      exact ih _ _ hrest hwalk

theorem stands_reset {s : Memory Block} {frame : Heap Block} {list : Option Chain}
    (h : Stands s frame list) : Stands { s with freed := [] } frame list := by
  cases h with
  | absent hslot hheap => exact .absent hslot hheap
  | whole hslot hown hpairs => exact .whole hslot hown hpairs
  | broken hslot hdangles => exact .broken hslot hdangles

theorem exit_slot {s s' : Memory Block} {frame : Heap Block} {cells : List Cell}
    {answers : List Bool} {result : Result} (h : Holds s cells frame)
    (hrun : Runs (prog .exit) s answers result s') : s'.slot = none := by
  have hexit : WP True Listed (fun _ s' => s'.slot = none) (prog .exit) s := by
    apply WP.bind
    refine (threadExit_spec h).post ?_
    rintro - s₁ hlisted ⟨hslot, -, -⟩
    exact WP.pure hlisted hslot
  exact WP.runs hrun hexit

/-- A thread that goes on has a list without a dangling pointer. -/
theorem Good.whole {history : List Entry} {s : Memory Block} {list : Option Chain}
    {frame : Heap Block} {addrs lost : List Addr} (h : Good T history s list frame addrs lost)
    (hlisted : ∀ entry ∈ history, Listed entry.after) :
    ∀ chain ∈ list, chain.broken = false := by
  intro chain hchain
  cases hbroken : chain.broken with
  | false => rfl
  | true =>
    obtain ⟨entry, hentry, hbad⟩ := h.broken chain hchain hbroken
    exact absurd (hlisted entry hentry) hbad

/-- One more call. -/
theorem Good.extend {history : List Entry} {s s' : Memory Block} {list list' : Option Chain}
    {frame frame' : Heap Block} {addrs lost : List Addr} {call : Call} {result : Result}
    {answers allocated : List Bool} (h : Good T history s list frame addrs lost)
    (hmay : mayGo history call)
    (hrun : Runs (prog call) { s with freed := [] } allocated result s')
    (hout : Outcome T call list frame result s' answers list' frame') :
    ∃ addrs' lost', Good T (history ++ [⟨call, result, { s with freed := [] }, s'⟩]) s' list'
      frame' addrs' lost' := by
  obtain ⟨addrs', lost', haccounts, hlost⟩ := h.accounts.gain hout.gains
  refine ⟨addrs', lost', ?_, hout.stands, ?_, ?_, ?_, ?_⟩
  · exact explained_snoc.mpr ⟨list, h.explained, h.whole hmay.2, hout.took, answers, hout.yields⟩
  · have hmore : handedOut (history ++ [⟨call, result, { s with freed := [] }, s'⟩]) =
        handedOut history ++ (given result).toList := by
      rw [handedOut, List.filterMap_append]
      cases hgiven : given result <;> simp [hgiven, handedOut]
    rw [hmore]
    exact haccounts
  · have hcount := h.fewLost
    rw [listless, List.countP_append, List.countP_singleton, ← listless]
    rcases hlost with rfl | ⟨rfl, rfl, hmore⟩
    · omega
    · have hbefore : s.slot = none := h.stands.slot_none
      have hafter : s'.slot = none := hout.stands.slot_none
      rw [hmore, if_pos (by simp [hbefore, hafter])]
      omega
  · rintro ⟨entry, hentry, hexit⟩
    rcases List.mem_append.mp hentry with hold | hnew
    · exact absurd hexit (hmay.1.2 entry hold)
    · rw [List.mem_singleton] at hnew
      subst hnew
      obtain rfl : call = .exit := hexit
      obtain ⟨cells, hholds, -, -⟩ := (stands_reset h.stands).holds (h.whole hmay.2)
      exact exit_slot hholds hrun
  · intro chain hchain hbroken
    refine ⟨⟨call, result, { s with freed := [] }, s'⟩, by simp, ?_⟩
    cases hout.stands with
    | absent hslot hheap => cases hchain
    | whole hslot hown hpairs =>
      cases hchain
      cases hbroken
    | broken hslot hdangles => exact not_listed hslot hdangles

theorem contract_failing : Contract True prog mayGo (fun _ => True) fun history s =>
    ∃ list frame addrs lost, Good T history s list frame addrs lost where
  start := ⟨none, fun _ => none, [], [], rfl, .absent rfl rfl,
    ⟨List.nodup_nil, by simp, rfl, by simp⟩, Nat.le_refl _, by simp, by simp⟩
  good_inv _ _ _ := trivial
  call history s call hgood hmay := by
    obtain ⟨list, frame, addrs, lost, hgood⟩ := hgood
    refine (call_matches (T := T) call hmay.1.1 (stands_reset hgood.stands)
      (hgood.whole hmay.2)).with_runs.post ?_
    rintro result s' - ⟨⟨answers, list', frame', hout⟩, allocated, hrun⟩
    obtain ⟨addrs', lost', hgood'⟩ := hgood.extend hmay hrun hout
    exact ⟨list', frame', addrs', lost', hgood'⟩

/-- The runs in which no allocation fails are among these. -/
theorem reachable_failing {G : State T} (h : Reachable False prog mayCall G) :
    Reachable True prog mayGo G := by
  induction h with
  | refl => exact .refl
  | @tail G G' hreach hmove ih =>
    obtain ⟨t, hstep⟩ := hmove
    refine ih.tail ⟨t, ?_⟩
    cases hstep with
    | call call hidle hmay =>
      refine .call call hidle ⟨hmay, fun entry hentry => ?_⟩
      obtain ⟨store, cells, -, -, -, cells', hafter, -⟩ :=
        (reachable_explained contract_public hreach t).mem hentry
      obtain ⟨frame, hholds, -⟩ := hafter.holds
      exact hholds.listed
    | @act β run c next choice result s hrun hrest hlegal hexec =>
      refine .act hrun hrest ?_ hexec
      cases c with
      | malloc block =>
        cases choice with
        | none => trivial
        | some a => exact hlegal
      | trySlot p =>
        cases choice with
        | none => trivial
        | some a => exact hlegal
      | _ => exact hlegal
    | unroll hrun hrest => exact .unroll hrun hrest
    | ret hrun hrest => exact .ret hrun hrest

/-- A first call for which `pthread_setspecific` finds no memory. -/
theorem get_loses {s : Memory Block} {a : Addr} (hdead : s.heap a = none) (hslot : s.slot = none)
    (key : CStr) : Runs (prog (.get (some key))) s [true, false] (.value none)
      (s.set a (some (.list none))) := by
  have hfresh : (Cmd.malloc Block.garbage).Legal True s.heap (some a) := hdead
  have hfill : (Cmd.store (some a) fun _ => some (.list none)).exec none
      (s.set a (some .garbage)) = some ((), s.set a (some (.list none))) := by
    simp [Cmd.exec, Memory.set_set]
  have hrefused : (Cmd.trySlot (some a)).Legal True (s.set a (some (.list none))).heap none :=
    trivial
  change Runs _ s ([] ++ ([true] ++ ([] ++ ([false] ++ [])))) _ _
  refine .act rfl (show Cmd.getSlot.exec none s = some (none, s) by rw [Cmd.exec, hslot]) ?_
  exact .act hfresh rfl (.act rfl hfill (.act hrefused rfl .ret))

/-- The calls of the first thread of `exists_sample`. -/
def sampleCalls : List Call :=
  [.add (some (.ofString "k")) (some (.ofString "v\n")), .get (some (.ofString "k")),
    .write fun _ => true]

/-- One thread makes three calls, then the first call of another fails and leaves it
without a list. -/
theorem exists_sample : ∃ (G : State Bool) (failed : Entry), Reachable True prog mayGo G ∧
    callsOf (G.thread true).history = sampleCalls ∧ (G.thread false).running = none ∧
    (G.thread false).slot = none ∧ (G.thread false).history = [failed] ∧
    failed.call = .get (some (.ofString "k")) ∧ failed.result = .value none := by
  obtain ⟨G, hreach, hidle, hcalls, hothers⟩ := exists_run contract_public (G := Config.initial)
    (t := true) .refl rfl sampleCalls (by
      intro history call later heq
      have hall : ∀ made ∈ history.map Record.call ++ call :: later,
          made ≠ .destroy ∧ made ≠ .exit := by
        rw [← heq]
        simp [Config.initial, sampleCalls]
      refine ⟨(hall call (by simp)).1, fun entry hentry => ?_⟩
      exact (hall entry.call (List.mem_append_left _ (List.mem_map_of_mem hentry))).2)
  have hfresh : G.thread false = ⟨none, [], none, []⟩ := hothers false (by decide)
  have hstart : Step True prog mayGo G false _ :=
    .call (.get (some (.ofString "k"))) (by rw [hfresh])
      ⟨⟨by simp, by simp [hfresh]⟩, by simp [hfresh]⟩
  have hstarted := (reachable_failing hreach).tail ⟨false, hstart⟩
  obtain ⟨a, ha⟩ := (reachable_finite hreach).infinite_compl.nonempty
  have hdead : plain G.heap a = none := by simpa [live] using ha
  obtain ⟨G', hreach', hidle', hview, hhistory, hothers'⟩ := reachable_run
    (get_loses (s := ⟨plain G.heap, none, []⟩) hdead rfl (.ofString "k")) hstarted
    (congrArg Thread.running (Config.setThread_self _)) rfl (by
      rw [Config.view, Config.setThread_self, hfresh]
      rfl)
  rw [Config.setThread_self, hfresh, List.nil_append] at hhistory
  refine ⟨G', _, hreach', ?_, hidle', congrArg Memory.slot hview, hhistory, rfl, rfl⟩
  rw [hothers' true (by decide), Config.setThread_other _ (by decide)]
  exact hcalls

/-! What a thread that is not in a call has in the heap. -/

/-- One call in `mdclog.c`, as one step. -/
def CallStep (system : System) (tv : Timeval) (severity : Severity) (s : Library T)
    (made : T × Call) (result : Result) (s' : Library T) : Prop :=
  (inMdclog system made.1 tv severity made.2).run s = some (result, s')

def labelled (item : T × Entry) : (T × Call) × Result := ((item.1, item.2.call), item.2.result)

theorem follows_of_explained (tv : Timeval) (severity : Severity) {trace : List (T × Entry)}
    {s : Library T} (hinit : s.initDone = true) {lists : T → Option Chain}
    (h : ∀ t, Explained T (s.mdcs t) ((trace.filter fun item => item.1 = t).map Prod.snd)
      (lists t)) :
    ∃ answers : List Bool, ∀ system : System,
      (∀ i ok, answers[i]? = some ok → system.malloc (s.allocations + i) = ok) →
      ∃ s', Follows (CallStep system tv severity) s (trace.map labelled) s' ∧
        s'.mdcs = lists := by
  induction trace generalizing s with
  | nil =>
    refine ⟨[], fun system _ => ⟨s, .start, ?_⟩⟩
    funext t
    exact (h t).symm
  | cons item trace ih =>
    obtain ⟨t, entry⟩ := item
    have hfirst := h t
    rw [List.filter_cons_of_pos (by simp), List.map_cons] at hfirst
    obtain ⟨mid, ⟨-, -, answers, hyields⟩, hrest⟩ := hfirst
    set s₁ : Library T := { s with
      mdcs := Function.update s.mdcs t mid, allocations := s.allocations + answers.length } with hs₁
    obtain ⟨later, hlater⟩ := ih (s := s₁) hinit (by
      intro u
      by_cases hu : u = t
      · subst hu
        simpa [hs₁] using hrest
      · have hother := h u
        rw [List.filter_cons_of_neg (by simpa using Ne.symm hu)] at hother
        simpa [hs₁, hu] using hother)
    refine ⟨answers ++ later, fun system hanswers => ?_⟩
    have hstep := hyields system t tv severity s hinit rfl fun i ok hok => hanswers i ok (by
      rw [List.getElem?_append_left (List.getElem?_eq_some_iff.mp hok).1, hok])
    obtain ⟨s', hfollows, hlists⟩ := hlater system fun i ok hok => by
      have hnext := hanswers (answers.length + i) ok (by
        rw [List.getElem?_append_right (Nat.le_add_right _ _), Nat.add_sub_cancel_left, hok])
      rwa [← Nat.add_assoc] at hnext
    refine ⟨s', ?_, hlists⟩
    have hone : Follows (CallStep system tv severity) s [labelled (t, entry)] s₁ :=
      Follows.step .start hstep
    exact follows_append.mpr ⟨s₁, hone, hfollows⟩

theorem reachable_listing {G : State T} (h : Reachable True prog mayGo G) (t : T) :
    ∃ list, Explained T none (G.thread t).history list ∧
      ((G.thread t).running = none → ∃ frame, Stands (G.part t) frame list) := by
  cases hrun : (G.thread t).running with
  | none =>
    obtain ⟨list, frame, _, _, hgood⟩ := (reachable_sound (contract_failing (T := T)) h t).idle hrun
    exact ⟨list, hgood.explained, fun _ => ⟨frame, hgood.stands⟩⟩
  | some run =>
    obtain ⟨G', hreach, hidle, ⟨entry, -, hhistory⟩, -⟩ :=
      reachable_completes (contract_failing (T := T)) h hrun
    obtain ⟨_, _, _, _, hgood⟩ := (reachable_sound (contract_failing (T := T)) hreach t).idle hidle
    have hexplained := hgood.explained
    rw [hhistory, explained_snoc] at hexplained
    obtain ⟨mid, hbefore, -⟩ := hexplained
    exact ⟨mid, hbefore, nofun⟩

/-- Whatever allocations fail and however the steps of the threads mix, no call faults,
every call ends, and in any order that keeps the order of each thread the calls with
their results are a run of `mdclog.c`, call by call, for some answers of its allocator. -/
theorem lists_linearize {G : State T} (h : Reachable True prog mayGo G) :
    (∀ t, ¬Faults True G t) ∧
    (∀ t, Acc (fun G₂ G₁ => Works True prog mayGo t G₁ G₂) G) ∧
    (∃ trace, Orders G trace) ∧
    ∀ trace, Orders G trace → ∀ (system : System) (tv : Timeval) (severity : Severity)
      (s : Library T), s.initDone = true → (∀ t, s.mdcs t = none) →
      ∃ malloc : Nat → Bool, (∀ n < s.allocations, malloc n = system.malloc n) ∧
        ∃ s', Follows (CallStep ⟨system.progname, malloc⟩ tv severity) s
            (trace.map labelled) s' ∧
          ∀ t, (G.thread t).running = none → ∃ frame, Stands (G.part t) frame (s'.mdcs t) := by
  refine ⟨reachable_safe (contract_failing (T := T)) h,
    reachable_halts (contract_failing (T := T)) h, reachable_orders h, ?_⟩
  intro trace htrace system tv severity s hinit hnone
  choose lists hexplained hstands using fun t => reachable_listing h t
  have hall : ∀ t, Explained T (s.mdcs t)
      ((trace.filter fun item => item.1 = t).map Prod.snd) (lists t) := by
    intro t
    rw [hnone t, htrace t]
    exact hexplained t
  obtain ⟨answers, hfollows⟩ := follows_of_explained tv severity hinit hall
  set malloc : Nat → Bool := fun n => if n < s.allocations then system.malloc n
    else (answers[n - s.allocations]?).getD true with hmalloc
  obtain ⟨s', hrun, hlists⟩ := hfollows ⟨system.progname, malloc⟩ (by
    intro i ok hok
    change (if s.allocations + i < s.allocations then _ else _) = ok
    rw [if_neg (by omega), Nat.add_sub_cancel_left, hok]
    rfl)
  refine ⟨malloc, fun n hn => if_pos hn, ?_⟩
  refine ⟨s', hrun, fun t hidle => ?_⟩
  rw [hlists]
  exact hstands t hidle

theorem lists_linearize_sample :
    ∃ (G : State Bool) (failed : Entry) (trace : List (Bool × Entry)) (malloc : Nat → Bool)
      (s' : Library Bool),
      callsOf (G.thread true).history = sampleCalls ∧ (G.thread false).history = [failed] ∧
      failed.result = .value none ∧ Orders G trace ∧
      Follows (CallStep ⟨.ofString "prog", malloc⟩ ⟨1, 0⟩ .err)
        { Library.initial with initDone := true } (trace.map labelled) s' := by
  obtain ⟨G, failed, hreach, hcalls, -, -, hhistory, -, hresult⟩ := exists_sample
  obtain ⟨-, -, ⟨trace, htrace⟩, hall⟩ := lists_linearize hreach
  obtain ⟨malloc, -, s', hfollows, -⟩ := hall trace htrace ⟨.ofString "prog", fun _ => true⟩
    ⟨1, 0⟩ .err { Library.initial with initDone := true } rfl fun _ => rfl
  exact ⟨G, failed, trace, malloc, s', hcalls, hhistory, hresult, htrace, hfollows⟩

/-! What a thread reads. -/

/-- What is stored under a key after a call that returned `result`, where `value` was
before. -/
def writes (key : CStr) (value : Option CStr) (call : Call) (result : Result) : Option CStr :=
  match call with
  | .add (some name) (some text) =>
      if name = key ∧ result = .status 0 then some (CStr.escaped text) else value
  | .remove (some name) => if name = key then none else value
  | .clean | .exit | .destroy => none
  | _ => value

/-- What the calls so far have left under a key. -/
def written (key : CStr) (history : List Entry) : Option CStr :=
  history.foldl (fun value entry => writes key value entry.call entry.result) none

theorem get?_run (key : CStr) (call : Call) (store : Store) :
    get? key (call.run store).1.pairs =
      writes key (get? key store.pairs) call (call.run store).2 := by
  cases call with
  | add name text =>
    cases name with
    | none => rfl
    | some name =>
      cases text with
      | none => rfl
      | some text =>
        by_cases hclean : Clean name.bytes
        · have hadd : Call.run (.add (some name) (some text)) store =
              (store.put name text hclean, .status 0) := by
            simp [Call.run, Store.add, hclean]
          rw [hadd]
          by_cases hname : name = key
          · subst hname
            simp [writes, Store.put, get?_put_self]
          · simp [writes, Store.put, hname, get?_put_of_ne (Ne.symm hname)]
        · have hadd : Call.run (.add (some name) (some text)) store = (store, .status (-1)) := by
            simp [Call.run, Store.add, hclean]
          rw [hadd]
          simp [writes]
  | remove name =>
    cases name with
    | none => rfl
    | some name =>
      by_cases hname : name = key
      · subst hname
        simp [writes, Call.run, Store.remove, Store.erase, get?_erase_self]
      · simp [writes, Call.run, Store.remove, Store.erase, hname,
          get?_erase_of_ne (Ne.symm hname)]
  | get name => rfl
  | write fits => rfl
  | clean => rfl
  | exit => rfl
  | destroy => rfl

theorem writes_of_failed {key : CStr} {value : Option CStr} {call : Call} {result : Result}
    (h : Failed call result) : writes key value call result = value := by
  cases call with
  | add name text =>
    obtain rfl : result = .status (-1) := h
    cases name <;> cases text <;> simp [writes]
  | get name => rfl
  | _ => exact h.elim

theorem get?_written {history : List Entry} {list : Option Chain}
    (h : Explained T none history list) (hwhole : ∀ chain ∈ list, chain.broken = false)
    (key : CStr) : get? key (storeOf list).pairs = written key history := by
  induction history using List.reverseRecOn generalizing list with
  | nil =>
    obtain rfl : list = none := h
    rfl
  | append_singleton history entry ih =>
    obtain ⟨mid, hbefore, hmid, htook, -⟩ := explained_snoc.mp h
    rw [written, List.foldl_append, List.foldl_cons, List.foldl_nil]
    change _ = writes key (written key history) entry.call entry.result
    rw [← ih hbefore hmid]
    rcases htook with hrun | ⟨hfailed, hsame | ⟨_, _, store, -, rfl⟩⟩
    · have hget := get?_run key entry.call (storeOf mid)
      rw [hrun] at hget
      exact hget
    · rw [hsame]
      exact (writes_of_failed hfailed).symm
    · cases hwhole _ rfl

/-- Under any failures: a value that a thread reads is the one that its own latest
`mdclog_mdc_add` that returned 0 left under the key, and a log entry is handed all pairs
left so and no others. -/
theorem reads_latest {G : State T} (h : Reachable True prog mayGo G) {t : T}
    {before later : List Entry} {entry : Entry}
    (hhistory : (G.thread t).history = before ++ entry :: later) :
    (∀ key, entry.call = .get (some key) →
      entry.result = .value none ∨ entry.result = .value (written key before)) ∧
    ∀ fits, entry.call = .write fits → ∃ pairs, (keys pairs).Nodup ∧
      (∀ key, get? key pairs = written key before) ∧
      entry.result = .pairs (handed fits [] pairs) := by
  obtain ⟨list, hexplained, -⟩ := reachable_listing h t
  rw [hhistory, explained_append] at hexplained
  obtain ⟨mid, hbefore, last, ⟨hwhole, htook, -⟩, -⟩ := hexplained
  have hwritten := get?_written hbefore hwhole
  constructor
  · intro key hcall
    rw [hcall] at htook
    rcases htook with hrun | ⟨hfailed, -⟩
    · refine .inr ?_
      rw [← hwritten key]
      exact (Prod.mk.inj hrun).2.symm
    · exact .inl hfailed
  · intro fits hcall
    rw [hcall] at htook
    rcases htook with hrun | ⟨hfailed, -⟩
    · exact ⟨(storeOf mid).pairs, (storeOf mid).distinct, hwritten, (Prod.mk.inj hrun).2.symm⟩
    · exact hfailed.elim

theorem reads_latest_sample :
    ∃ (G : State Bool) (first second third failed : Entry) (pairs : List (CStr × CStr)),
      (G.thread true).history = [first, second, third] ∧
      first.call = .add (some (.ofString "k")) (some (.ofString "v\n")) ∧
      get? (.ofString "k") pairs = written (.ofString "k") [first, second] ∧
      third.result = .pairs (handed (fun _ => true) [] pairs) ∧
      (G.thread false).history = [failed] ∧ failed.result = .value none := by
  obtain ⟨G, failed, hreach, hcalls, -, -, hfailed, -, hnone⟩ := exists_sample
  obtain ⟨first, rest, hhistory, hfirst, hrest⟩ := List.map_eq_cons_iff.mp hcalls
  obtain ⟨second, rest, rfl, -, hrest⟩ := List.map_eq_cons_iff.mp hrest
  obtain ⟨third, rest, rfl, hthird, hrest⟩ := List.map_eq_cons_iff.mp hrest
  obtain rfl := List.map_eq_nil_iff.mp hrest
  have hlatest := reads_latest hreach
    (show (G.thread true).history = [first, second] ++ third :: [] from hhistory)
  obtain ⟨pairs, -, hwritten, hresult⟩ := hlatest.2 _ hthird
  exact ⟨G, first, second, third, failed, pairs, hhistory, hfirst, hwritten _, hresult, hfailed,
    hnone⟩

end Mdclog.ChainRuns
