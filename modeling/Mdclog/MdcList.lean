import Mdclog.Escape
import Mdclog.Foundation.HeapProgram

/-! `mdc.c`: the MDC list of one thread as programs over the heap. The slot is
the value of `mdcpthreadkey` for the thread. -/
namespace Mdclog.MdcList
open Foundation.HeapProgram CString Escape

/-- `struct mdc`. -/
structure Mdc where
  prev : Pointer
  next : Pointer
  key : Pointer
  value : Pointer
  deriving DecidableEq

/-- What `malloc` returns holds `garbage` until it is written. `list` is
`struct mdclist`. -/
inductive Block where
  | garbage
  | list (head : Pointer)
  | entry (mdc : Mdc)
  | text (str : CStr)
  deriving DecidableEq

def Block.head : Block → Option Pointer
  | .list head => some head
  | _ => none

def Block.asMdc : Block → Option Mdc
  | .entry mdc => some mdc
  | _ => none

def Block.str : Block → Option CStr
  | .text str => some str
  | _ => none

abbrev Program := Prog Block

/-- `mdc->field`. -/
def field (mdc : Pointer) (read : Mdc → Pointer) : Program Pointer :=
  load mdc fun block => block.asMdc.map read

/-- `mdc->field = ...`. -/
def setField (mdc : Pointer) (write : Mdc → Mdc) : Program Unit :=
  store mdc fun block => block.asMdc.map fun mdc => .entry (write mdc)

def setHead (list : Pointer) (head : Pointer) : Program Unit :=
  store list fun block => block.head.map fun _ => .list head

def listHead (list : Pointer) : Program Pointer := load list Block.head

/-- The characters behind a `char *`. -/
def str (p : Pointer) : Program CStr := load p Block.str

def strdup (text : CStr) : Program Pointer := malloc (.text text)

def allocEntry : Program Pointer := do
  let mdc ← malloc .garbage
  match mdc with
  | none => return none
  | some _ =>
      store mdc fun _ => some (.entry ⟨none, none, none, none⟩)
      return mdc

def addToList (mdc list : Pointer) : Program Unit := do
  let head ← listHead list
  match head with
  | none => setHead list mdc
  | some _ =>
      setField mdc fun mdc => { mdc with next := head }
      setField head fun head => { head with prev := mdc }
      setHead list mdc

def mdcDestroy (mdc : Pointer) : Program Unit := do
  let key ← field mdc Mdc.key
  free key
  let value ← field mdc Mdc.value
  free value
  free mdc

/-! The three tests of `rm_from_list`. -/

def unlinkHead (mdc list : Pointer) : Program Unit := do
  let head ← listHead list
  if mdc = head then
    let next ← field mdc Mdc.next
    setHead list next
  else return

def unlinkPrev (mdc : Pointer) : Program Unit := do
  let prev ← field mdc Mdc.prev
  match prev with
  | none => return
  | some _ =>
      let next ← field mdc Mdc.next
      setField prev fun node => { node with next := next }

def unlinkNext (mdc : Pointer) : Program Unit := do
  let next ← field mdc Mdc.next
  match next with
  | none => return
  | some _ =>
      let prev ← field mdc Mdc.prev
      setField next fun node => { node with prev := prev }

def unlink (mdc list : Pointer) : Program Unit := do
  unlinkHead mdc list
  unlinkPrev mdc
  unlinkNext mdc

def rmFromList (mdc list : Pointer) : Program Unit := do
  unlink mdc list
  mdcDestroy mdc

def emptyList (list : Pointer) : Program Unit :=
  match list with
  | none => return
  | some _ => do
      let mdc ← listHead list
      loop (fun mdc =>
        match mdc with
        | none => return .inr ()
        | some _ => do
            let next ← field mdc Mdc.next
            rmFromList mdc list
            return .inl next) mdc

def destroyList (list : Pointer) : Program Unit := do
  emptyList list
  free list
  setSlot none

/-- Without memory for its own table `pthread_setspecific` fails: then the new list
stays where it is and nobody has it. -/
def getList : Program Pointer := do
  let list ← getSlot
  match list with
  | some _ => return list
  | none =>
      let list ← malloc .garbage
      match list with
      | none => return none
      | some _ =>
          store list fun _ => some (.list none)
          let ok ← trySlot list
          if ok then return list else return none

/-- The bytes `malloc` left in the buffer do not matter, see `escapedCopy_eq`. -/
def escapeAndCopy (text : CStr) : Program Pointer := do
  let buf ← malloc .garbage
  match buf with
  | none => return none
  | some _ =>
      store buf fun _ => (escapedCopy (fun _ => 0) text).map .text
      return buf

/-- `mdclog_internal_search_mdc` from its test of `list` on. -/
def searchList (key : CStr) (list : Pointer) : Program Pointer :=
  match list with
  | none => return none
  | some _ => do
      let mdc ← listHead list
      loop (fun mdc =>
        match mdc with
        | none => return .inr none
        | some _ => do
            let name ← str (← field mdc Mdc.key)
            if key = name then return .inr mdc
            else return .inl (← field mdc Mdc.next)) mdc

def mdclogInternalSearchMdc (key : CStr) : Program Pointer := do
  let list ← getList
  searchList key list

/-- The end of `mdclog_internal_put_mdc`, for a new entry and for a found one. -/
def setValue (mdc : Pointer) (value : CStr) : Program Int := do
  let copy ← escapeAndCopy value
  setField mdc fun mdc => { mdc with value := copy }
  let key ← field mdc Mdc.key
  let value ← field mdc Mdc.value
  if key.isSome && value.isSome then return 0
  else
    mdcDestroy mdc
    return -1

def mdclogInternalPutMdc (key value : CStr) : Program Int := do
  let list ← getList
  match list with
  | none => return -1
  | some _ =>
      let mdc ← mdclogInternalSearchMdc key
      match mdc with
      | none =>
          let mdc ← allocEntry
          match mdc with
          | none => return -1
          | some _ =>
              let name ← strdup key
              setField mdc fun mdc => { mdc with key := name }
              addToList mdc list
              setValue mdc value
      | some _ =>
          free (← field mdc Mdc.value)
          setValue mdc value

def mdclogInternalRmMdc (key : CStr) : Program Unit := do
  let mdc ← mdclogInternalSearchMdc key
  match mdc with
  | none => return
  | some _ => rmFromList mdc (← getList)

def mdclogInternalGetFirstMdc : Program Pointer := do
  let list ← getList
  match list with
  | none => return none
  | some _ => listHead list

def mdclogInternalGetNextMdc (mdc : Pointer) : Program Pointer :=
  match mdc with
  | none => return none
  | some _ => field mdc Mdc.next

def mdclogInternalGetMdcVal (mdc : Pointer) : Program Pointer :=
  match mdc with
  | none => return none
  | some _ => field mdc Mdc.value

def mdclogInternalGetMdcKey (mdc : Pointer) : Program Pointer :=
  match mdc with
  | none => return none
  | some _ => field mdc Mdc.key

def mdclogInternalCleanMdclist : Program Unit := do
  emptyList (← getList)

def mdclogInternalDestroyMdclist : Program Unit := do
  destroyList (← getList)

/-! The MDC calls of `mdclog.c`, lines 212 to 249, without `init_library`, which
touches neither the slot nor an MDC block. -/

def mdclogMdcAdd (key value : Option CStr) : Program Int :=
  match key, value with
  | some key, some value =>
      if mdclogInternalContainsSpecialCharacters key then return -1
      else mdclogInternalPutMdc key value
  | _, _ => return -1

def mdclogMdcGet (key : Option CStr) : Program Pointer :=
  match key with
  | none => return none
  | some key => do
      let mdc ← mdclogInternalSearchMdc key
      match mdc with
      | none => return none
      | some _ => strdup (← str (← mdclogInternalGetMdcVal mdc))

def mdclogMdcRemove (key : Option CStr) : Program Unit :=
  match key with
  | none => return
  | some key => mdclogInternalRmMdc key

def mdclogMdcClean : Program Unit := mdclogInternalCleanMdclist

/-- The MDC side of `mdclog_write`: the walk of `format_mdc` over the list. The
pairs so far decide whether the last one still `fits`; the walk ends at the
first that does not. -/
def handOver (fits : List (CStr × CStr) → Bool) : Program (List (CStr × CStr)) := do
  let mdc ← mdclogInternalGetFirstMdc
  loop (fun (mdc, pairs) =>
    match mdc with
    | none => return .inr pairs
    | some _ => do
        let key ← str (← mdclogInternalGetMdcKey mdc)
        let value ← str (← mdclogInternalGetMdcVal mdc)
        let pairs := pairs ++ [(key, value)]
        if fits pairs then return .inl (← mdclogInternalGetNextMdc mdc, pairs)
        else return .inr pairs) (mdc, [])

/-- The end of a thread: a slot that is not null is cleared and its value handed
to `destroy_list`. -/
def threadExit : Program Unit := do
  let list ← getSlot
  match list with
  | none => return
  | some _ =>
      setSlot none
      destroyList list

end Mdclog.MdcList
