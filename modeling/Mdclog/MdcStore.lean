import Mdclog.Escape
import Mdclog.Foundation.OrderedMap

/-! What the MDC list of a thread is for: a finite map in insertion order, with
escaped values, and the public calls on it. -/
namespace Mdclog.MdcStore
open Foundation.OrderedMap CString Escape

/-- The pair as it is stored for the value `pair.2`. -/
def stored (pair : CStr × CStr) : CStr × CStr := (pair.1, CStr.escaped pair.2)

/-- The pairs of one thread. -/
@[ext] structure Store where
  pairs : List (CStr × CStr)
  distinct : (keys pairs).Nodup
  clean : ∀ pair ∈ pairs, Clean pair.1.bytes
  escaped : ∀ pair ∈ pairs, ∃ value, pair.2 = CStr.escaped value

def Store.empty : Store := ⟨[], List.nodup_nil, by simp, by simp⟩

def Store.put (store : Store) (key value : CStr) (h : Clean key.bytes) : Store where
  pairs := Foundation.OrderedMap.put key (CStr.escaped value) store.pairs
  distinct := nodup_put store.distinct
  clean pair hpair := by
    rcases mem_put hpair with rfl | hpair
    · exact h
    · exact store.clean pair hpair
  escaped pair hpair := by
    rcases mem_put hpair with rfl | hpair
    · exact ⟨value, rfl⟩
    · exact store.escaped pair hpair

def Store.erase (store : Store) (key : CStr) : Store where
  pairs := Foundation.OrderedMap.erase key store.pairs
  distinct := nodup_erase store.distinct
  clean pair hpair := store.clean pair (mem_erase hpair)
  escaped pair hpair := store.escaped pair (mem_erase hpair)

/-- The pairs in front of the one with this key. -/
def Store.until (store : Store) (key : CStr) : Store where
  pairs := store.pairs.takeWhile fun pair => pair.1 ≠ key
  distinct := store.distinct.sublist ((List.takeWhile_sublist _).map _)
  clean pair hpair := store.clean pair ((List.takeWhile_sublist _).subset hpair)
  escaped pair hpair := store.escaped pair ((List.takeWhile_sublist _).subset hpair)

instance (key : CStr) : Decidable (Clean key.bytes) :=
  decidable_of_iff _ (clean_iff key)

/-- `mdclog_mdc_add`: a null pointer or a special character in the key is an
error. -/
def Store.add (store : Store) (key value : Option CStr) : Store × Int :=
  match key, value with
  | some key, some value =>
      if h : Clean key.bytes then (store.put key value h, 0) else (store, -1)
  | _, _ => (store, -1)

def Store.get (store : Store) (key : Option CStr) : Option CStr :=
  key.bind fun key => get? key store.pairs

def Store.remove (store : Store) (key : Option CStr) : Store :=
  match key with
  | none => store
  | some key => store.erase key

/-- The pairs a log entry asks for, up to the first that does not fit. -/
def handed (fits : List (CStr × CStr) → Bool) :
    List (CStr × CStr) → List (CStr × CStr) → List (CStr × CStr)
  | front, [] => front
  | front, pair :: pairs =>
      if fits (front ++ [pair]) then handed fits (front ++ [pair]) pairs else front ++ [pair]

/-- The calls that touch the MDC list of a thread. `write` asks for pairs while
they fit, `exit` is the end of the thread, and `destroy` is
`mdclog_internal_destroy_mdclist`. -/
inductive Call where
  | add (key value : Option CStr)
  | get (key : Option CStr)
  | remove (key : Option CStr)
  | clean
  | write (fits : List (CStr × CStr) → Bool)
  | exit
  | destroy

inductive Result where
  | status (code : Int)
  | value (text : Option CStr)
  | pairs (pairs : List (CStr × CStr))
  | done
  deriving DecidableEq

def Call.run : Call → Store → Store × Result
  | .add key value, store => ((store.add key value).1, .status (store.add key value).2)
  | .get key, store => (store, .value (store.get key))
  | .remove key, store => (store.remove key, .done)
  | .clean, _ => (.empty, .done)
  | .write fits, store => (store, .pairs (handed fits [] store.pairs))
  | .exit, _ => (.empty, .done)
  | .destroy, _ => (.empty, .done)

/-- The store after a sequence of calls. -/
def after (store : Store) (calls : List Call) : Store :=
  calls.foldl (fun store call => (call.run store).1) store

end Mdclog.MdcStore
