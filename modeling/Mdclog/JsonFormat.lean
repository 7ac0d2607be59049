import Mdclog.Escape

/-! `json_format.c`, lines 137 to 348: the section writers and the log entry
they share one buffer for. A pointer `&buffer[base]` is the pair of the buffer
and the index `base`. -/
namespace Mdclog.JsonFormat
open Foundation.ByteBuffer CString Escape

def minBufferLength : Nat := 1000

def identityMaxLength : Nat := 100

/-- `mdclog_severity_t`. A caller can pass any value of the underlying unsigned
type, so the values that name no level are kept apart. -/
inductive Severity where
  | err
  | warn
  | info
  | debug
  | other (code : Nat) (h : code = 0 ∨ 4 < code)
  deriving DecidableEq

def Severity.code : Severity → Nat
  | .err => 1
  | .warn => 2
  | .info => 3
  | .debug => 4
  | .other code _ => code

def Severity.val : Severity → Option (List UInt8)
  | .err => some (ascii "ERROR")
  | .warn => some (ascii "WARNING")
  | .info => some (ascii "INFO")
  | .debug => some (ascii "DEBUG")
  | .other _ _ => none

/-- `struct timeval`. -/
structure Timeval where
  tvSec : Int
  tvUsec : Int

def truncatedText : List UInt8 := ascii "[truncated]"

def minimumMessage : List UInt8 := ascii "\"msg\":\"[truncated]\""

/-- What `format_timestamp`, `format_severity` and `format_identity` have in
common: print the member, and take it back unless it fits with its NUL. -/
def formatField (buffer : Buffer) (base len : Nat) (out : List UInt8) :
    Option (Buffer × Nat) := do
  let (buffer, ret) ← snprintf buffer base len out
  if ret < 0 ∨ len ≤ sizeOfInt ret then
    let buffer ← store buffer base 0
    return (buffer, 0)
  else
    return (buffer, sizeOfInt ret)

def timestamp (tv : Timeval) : Nat :=
  (sizeOfInt tv.tvSec * 1000 + sizeOfInt tv.tvUsec / 1000) % sizeModulus

def timestampText (tv : Timeval) : List UInt8 :=
  ascii "\"ts\":" ++ decimal (timestamp tv)

def formatTimestamp (buffer : Buffer) (base len : Nat) (tv : Timeval) : Option (Buffer × Nat) :=
  formatField buffer base len (timestampText tv)

def severityText (val : List UInt8) : List UInt8 :=
  ascii "\"crit\":\"" ++ val ++ ascii "\""

def formatSeverity (buffer : Buffer) (base len : Nat) (severity : Severity) :
    Option (Buffer × Nat) :=
  match severity.val with
  | some val => formatField buffer base len (severityText val)
  | none => do
      let buffer ← store buffer base 0
      return (buffer, 0)

def identityText (identity : Option CStr) : List UInt8 :=
  ascii "\"id\":\"" ++
    ((identity.getD (CStr.ofString "(null)")).bytes.take identityMaxLength) ++ ascii "\""

def formatIdentity (buffer : Buffer) (base len : Nat) (identity : Option CStr) :
    Option (Buffer × Nat) :=
  formatField buffer base len (identityText identity)

/-- One call of `vsnprintf`: the complete output, or a negative value and
whatever the call left in the buffer. -/
inductive Vsnprintf where
  | output (bytes : List UInt8) (h : bytes.length ≤ intMax)
  | failure (ret : Int) (h : ret < 0) (contents : Nat → UInt8)

def vsnprintf (call : Vsnprintf) (buffer : Buffer) (size : Nat) : Option (Buffer × Int) :=
  match call with
  | .output bytes _ => snprintf buffer 0 size bytes
  | .failure ret _ contents => some (fresh contents buffer.length, ret)

/-- The backward search for the place of the truncation mark. It reads
`buffer[i - 1]`, so it has no meaning once `i` has passed below zero. -/
def truncateLoop (buffer : Buffer) (base len : Nat) : Nat → Option Nat
  | 0 => if sizeSub len 1 ≤ 0 + truncatedText.length then none else some 0
  | i + 1 =>
      if sizeSub len 1 ≤ i + 1 + truncatedText.length then
        match buffer[base + i]? with
        | none => none
        | some c =>
            if c = backslash || c = quote then
              match i with
              | 0 => none
              | j + 1 => truncateLoop buffer base len j
            else truncateLoop buffer base len i
      else some (i + 1)

/-- `malloc` gives the contents of the new block, or nothing. -/
def formatMessage (buffer : Buffer) (base len : Nat) (malloc : Option (Nat → UInt8))
    (call : Vsnprintf) : Option (Buffer × Nat) := do
  if len ≤ minimumMessage.length then
    let buffer ← store buffer base 0
    return (buffer, 0)
  let (buffer, start) ← snprintf buffer base len (ascii "\"msg\":\"")
  if start < 0 ∨ len ≤ sizeOfInt start then
    let buffer ← store buffer base 0
    return (buffer, 0)
  let msgStart := start.toNat
  match malloc with
  | none =>
      let buffer ← store buffer base 0
      return (buffer, 0)
  | some contents =>
      let tmpBuf := fresh contents (sizeSub len msgStart)
      let (tmpBuf, ret) ← vsnprintf call tmpBuf (sizeSub len msgStart)
      let msgLen := sizeOfInt ret
      -- one byte more for the closing quote
      let cut := decide (sizeSub len msgStart ≤ sizeAdd msgLen 1)
      let (buffer, escapedLen, escapeCut) ← mdclogInternalEscape buffer (base + msgStart)
        (sizeSub (sizeSub len msgStart) 1) (CStr.ofMemory tmpBuf)
      let totalLen := msgStart + escapedLen
      if cut || escapeCut then
        let i ← truncateLoop buffer base len totalLen
        let (buffer, added) ← sprintf buffer (base + i) (truncatedText ++ ascii "\"")
        return (buffer, i + added)
      else
        let (buffer, added) ← sprintf buffer (base + totalLen) (ascii "\"")
        return (buffer, totalLen + added)

/-- One MDC pair with the comma after it. -/
def pairText (pair : CStr × CStr) : List UInt8 :=
  ascii "\"" ++ pair.1.bytes ++ ascii "\":\"" ++ pair.2.bytes ++ ascii "\","

/-- The loop of `format_mdc` over the pairs still to come: the buffer, the
offset and the number of pairs written. -/
def formatMdcLoop (base len : Nat) :
    Buffer → Nat → Nat → List (CStr × CStr) → Option (Buffer × Nat × Nat)
  | buffer, offset, mdcCount, [] => some (buffer, offset, mdcCount)
  | buffer, offset, mdcCount, pair :: mdc => do
      let (buffer, ret) ← snprintf buffer (base + offset) (sizeSub len offset) (pairText pair)
      if ret < 0 ∨ sizeSub len offset ≤ sizeOfInt ret then
        return (buffer, offset, mdcCount)
      else
        formatMdcLoop base len buffer (offset + ret.toNat) (mdcCount + 1) mdc

def formatMdc (buffer : Buffer) (base len : Nat) (mdc : List (CStr × CStr)) :
    Option (Buffer × Nat) := do
  let (buffer, ret) ← snprintf buffer base len (ascii "\"mdc\":\x7b")
  -- one byte more for the closing brace
  if ret < 0 ∨ len ≤ sizeAdd (sizeOfInt ret) 1 then
    let buffer ← store buffer base 0
    return (buffer, 0)
  let (buffer, offset, mdcCount) ← formatMdcLoop base len buffer ret.toNat 0 mdc
  -- remove the last comma
  let offset := if 0 < mdcCount then offset - 1 else offset
  let buffer ← store buffer (base + offset) 0x7d
  let buffer ← store buffer (base + (offset + 1)) 0
  return (buffer, offset + 1)

/-- The room of a section that starts at `offset`: the minimum message and one
byte more are kept back. -/
def sectionRoom (len offset : Nat) : Nat :=
  sizeSub (sizeSub (sizeSub len offset) minimumMessage.length) 1

/-- A section followed by a comma, if it wrote anything. -/
def appendComma (offset : Nat) (written : Buffer × Nat) : Option (Buffer × Nat) :=
  if 0 < written.2 then do
    let buffer ← store written.1 (offset + written.2) comma
    return (buffer, offset + written.2 + 1)
  else
    some (written.1, offset)

def formatLogEntry (buffer : Buffer) (len : Nat) (tv : Timeval) (identity : Option CStr)
    (severity : Severity) (mdc : List (CStr × CStr)) (malloc : Option (Nat → UInt8))
    (call : Vsnprintf) : Option (Buffer × Int) := do
  let buffer ← store buffer 0 0x7b
  let offset := 1
  let written ← formatTimestamp buffer offset (sectionRoom len offset) tv
  let (buffer, offset) ← appendComma offset written
  let written ← formatSeverity buffer offset (sectionRoom len offset) severity
  let (buffer, offset) ← appendComma offset written
  let written ← formatIdentity buffer offset (sectionRoom len offset) identity
  let (buffer, offset) ← appendComma offset written
  let written ← formatMdc buffer offset (sectionRoom len offset) mdc
  let (buffer, offset) ← appendComma offset written
  let (buffer, ret) ← formatMessage buffer offset (sizeSub (sizeSub len offset) 1) malloc call
  if 0 < ret then
    let buffer ← store buffer (offset + ret) 0x7d
    let buffer ← store buffer (offset + ret + 1) 0
    return (buffer, (offset + ret + 1 : Nat))
  else
    let buffer ← store buffer 0 0
    return (buffer, -1)

def mdclogInternalFormatToJsonStr (buffer : Buffer) (len : Nat) (tv : Timeval)
    (identity : Option CStr) (severity : Severity) (mdc : List (CStr × CStr))
    (malloc : Option (Nat → UInt8)) (call : Vsnprintf) : Option (Buffer × Int) :=
  if len < minBufferLength then some (buffer, -1)
  else formatLogEntry buffer len tv identity severity mdc malloc call

end Mdclog.JsonFormat
