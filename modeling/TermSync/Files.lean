import Mathlib.Logic.Function.Basic
import TermSync.CString
import TermSync.Foundations.Scripts

/-!
# Writing files (`autosave.c`)

A disk maps paths to contents. Every call to the operating system takes one or more steps; the
script of a run says how each of them turns out, and it may end after any step. What an open output
stream has accepted is pending until it reaches the file: some of it may do so at any step of
`fwrite` and `fclose`, and a `fclose` that fails loses the rest. At most one output stream is open at
a time.
-/

namespace TermSync

open Foundations

/-! ## The calls -/

/-- A call, with what decides its result: whether the path exists, what is unread or pending, what a
rename moves. -/
inductive FileCall where
  | mkdir (path : Bytes)
  | access (path : Bytes) (there : Bool)
  | fopen (path mode : Bytes)
  | fread (path unread : Bytes)
  | fwrite (path data : Bytes)
  | fclose (path pending : Bytes)
  | rename (source target : Bytes) (content : Option Bytes)
  deriving DecidableEq, Repr

/-- How a step turns out: the call succeeds, `k` bytes are transferred and the call goes on, or the
call fails after `k` bytes. -/
inductive CallOutcome where
  | done
  | part (k : ℕ)
  | fail (k : ℕ)
  deriving DecidableEq, Repr

/-- The step succeeds, or it goes on. -/
def CallOutcome.Succeeds : CallOutcome → Prop
  | .fail _ => False
  | _ => True

instance : DecidablePred CallOutcome.Succeeds
  | .done | .part _ => isTrue trivial
  | .fail _ => isFalse id

/-- The files, the bytes pending in the open output stream, and the steps taken so far. -/
structure Disk where
  file : Bytes → Option Bytes
  pending : Bytes
  trace : List (FileCall × CallOutcome)

/-- A program that calls the operating system. -/
abbrev FileProg := Scripted Disk CallOutcome

/-- The file gets a new content. -/
def Disk.set (d : Disk) (path : Bytes) (content : Option Bytes) : Disk :=
  { d with file := Function.update d.file path content }

/-- The first `k` pending bytes reach the end of the file. -/
def Disk.flush (d : Disk) (path : Bytes) (k : ℕ) : Disk :=
  { d.set path (some ((d.file path).getD [] ++ d.pending.take k)) with
    pending := d.pending.drop k }

/-- A call whose steps are recorded. -/
def fileCall {α : Type} (call : Disk → FileCall) (f : Disk → CallOutcome → Disk × Option α) :
    FileProg α :=
  Scripted.call fun d o =>
    ({ (f d o).1 with trace := d.trace ++ [(call d, o)] }, (f d o).2)

/-- `mkdir(path, 0775) != 0 && errno != EEXIST` as a return code: a directory that exists already is
no failure. -/
def mkdir (path : Bytes) : FileProg ℤ :=
  fileCall (fun _ => .mkdir path) fun d o =>
    match o with
    | .done => (d, some 0)
    | .part _ => (d, none)
    | .fail _ => (d, some (-1))

/-- `access(path, F_OK)`: it may fail although the file exists. -/
def access (path : Bytes) : FileProg ℤ :=
  fileCall (fun d => .access path (d.file path).isSome) fun d o =>
    match o with
    | .done => (d, some (if (d.file path).isSome then 0 else -1))
    | .part _ => (d, none)
    | .fail _ => (d, some (-1))

/-- `fopen(path, "rb") != NULL` -/
def fopenRead (path : Bytes) : FileProg Bool :=
  fileCall (fun _ => .fopen path (bytes "rb")) fun d o =>
    match o with
    | .done => (d, some (d.file path).isSome)
    | .part _ => (d, none)
    | .fail _ => (d, some false)

/-- `fopen(path, "wb") != NULL`: the file is created or truncated. -/
def fopenWrite (path : Bytes) : FileProg Bool :=
  fileCall (fun _ => .fopen path (bytes "wb")) fun d o =>
    match o with
    | .done => ({ d.set path (some []) with pending := [] }, some true)
    | .part _ => (d, none)
    | .fail _ => (d, some false)

/-- `fopen(path, "ab") != NULL`: the file is created unless it exists. -/
def fopenAppend (path : Bytes) : FileProg Bool :=
  fileCall (fun _ => .fopen path (bytes "ab")) fun d o =>
    match o with
    | .done => ({ d.set path (some ((d.file path).getD [])) with pending := [] }, some true)
    | .part _ => (d, none)
    | .fail _ => (d, some false)

/-- The size of the buffer of `copy_file`. -/
def copyBufferSize : ℕ := 8192

/-- `fread` into the buffer of `copy_file`, from a stream that stands at `pos`. A read error ends it
after `k` bytes. -/
def fread (path : Bytes) (pos : ℕ) : FileProg Bytes :=
  fileCall (fun d => .fread path (((d.file path).getD []).drop pos)) fun d o =>
    match o with
    | .done => (d, some ((((d.file path).getD []).drop pos).take copyBufferSize))
    | .part _ => (d, none)
    | .fail k => (d, some ((((d.file path).getD []).drop pos).take (min k copyBufferSize)))

/-- `fwrite(data, 1, n, out)`: the number of bytes that the stream has accepted. -/
def fwrite (path data : Bytes) : FileProg ℕ := do
  Scripted.modify fun d => { d with pending := d.pending ++ data }
  fileCall (fun _ => .fwrite path data) fun d o =>
    match o with
    | .done => (d, some data.length)
    | .part k => (d.flush path k, none)
    | .fail k =>
      ({ d with pending := d.pending.take (d.pending.length - (data.length - k)) },
        some (min k data.length))

/-- `fclose(out)` -/
def fclose (path : Bytes) : FileProg ℤ :=
  fileCall (fun d => .fclose path d.pending) fun d o =>
    match o with
    | .done => (d.flush path d.pending.length, some 0)
    | .part k => (d.flush path k, none)
    | .fail k => ({ d.flush path k with pending := [] }, some (-1))

/-- `rename(source, target)` -/
def rename (source target : Bytes) : FileProg ℤ :=
  fileCall (fun d => .rename source target (d.file source)) fun d o =>
    match o, d.file source with
    | .done, some content => ((d.set source none).set target (some content), some 0)
    | .done, none => (d, some (-1))
    | .part _, _ => (d, none)
    | .fail _, _ => (d, some (-1))

/-! ## What the steps have done -/

/-- The step takes something away that the calling code does not notice: `access` overlooks a file,
`fread` ends before the end of the file, or `fclose` drops pending bytes. -/
def Lossy : FileCall × CallOutcome → Bool
  | (.access _ there, .fail _) => there
  | (.fread _ unread, .fail k) => unread ≠ [] ∧ k = 0
  | (.fclose _ pending, .fail k) => k < pending.length
  | _ => false

/-- The file that a step has put in another file's place: the path and the content. -/
def replacement : FileCall × CallOutcome → Option (Bytes × Bytes)
  | (.rename _ target (some content), .done) => some (target, content)
  | _ => none

/-- The steps that have lost something. -/
def Disk.losses (d : Disk) : List (FileCall × CallOutcome) := d.trace.filter Lossy

/-- The files that have been replaced, in order. -/
def Disk.replacements (d : Disk) : List (Bytes × Bytes) := d.trace.filterMap replacement

/-! ## Paths -/

/-- `PATH_MAX` -/
def pathMax : ℕ := 4096

/-- `suffix_path` with a buffer of size `PATH_MAX`. -/
def suffixPath (path suffix : Bytes) : Bytes := snprintf pathMax (path ++ suffix)

/-- The directories that the loop of `mkdir_parent_recursive` passes to `mkdir`: `copy` up to each
slash behind its first byte, and `copy` itself. -/
def directories (copy : Bytes) : List Bytes :=
  (((List.range copy.length).filter fun i => 0 < i ∧ copy[i]? = some 47).map fun i => copy.take i) ++
    [copy]

/-- The path up to its last slash. -/
def parentDirectory (path : Bytes) : Bytes :=
  let copy := snprintf pathMax path
  ((copy.reverse.dropWhile fun b => b ≠ 47).drop 1).reverse

/-- Make the directories in order, as long as none of them fails. -/
def mkdirAll : List Bytes → FileProg ℤ
  | [] => pure 0
  | directory :: rest => do
    let rc ← mkdir directory
    if rc ≠ 0 then pure (-1) else mkdirAll rest

/-- `mkdir_parent_recursive` -/
def mkdirParentRecursive (path : Bytes) : FileProg ℤ :=
  if parentDirectory path = [] then pure 0 else mkdirAll (directories (parentDirectory path))

/-! ## Saving -/

/-- The temporary file of `ts_atomic_write_text` and the backup of `ts_write_with_backup`, as long as
the paths are not truncated. -/
def tmpOf (path : Bytes) : Bytes := path ++ bytes ".tmp"
def bakOf (path : Bytes) : Bytes := path ++ bytes ".bak"

/-- One round of the loop of `copy_file`, from position `pos` on. The loop ends well when `fread`
returns nothing. -/
def copyRound (src dst : Bytes) (pos : ℕ) : FileProg (ℕ ⊕ Bool) := do
  let buffer ← fread src pos
  if buffer = [] then pure (.inr true)
  else do
    let n ← fwrite dst buffer
    if n ≠ buffer.length then pure (.inr false) else pure (.inl (pos + buffer.length))

/-- `copy_file`. The results of `fclose` are not looked at; closing the input changes no file. -/
def copyFile (src dst : Bytes) : FileProg ℤ := do
  let opened ← fopenRead src
  if opened = false then pure (-1)
  else do
    let created ← fopenWrite dst
    if created = false then pure (-1)
    else do
      let copied ← Scripted.iterate (copyRound src dst) 0
      let _ ← fclose dst
      if copied = false then pure (-1) else pure 0

/-- `ts_atomic_write_text` -/
def tsAtomicWriteText (path content : Bytes) : FileProg ℤ := do
  let rc ← mkdirParentRecursive path
  if rc ≠ 0 then pure (-1)
  else do
    let tmpPath := suffixPath path (bytes ".tmp")
    let opened ← fopenWrite tmpPath
    if opened = false then pure (-1)
    else do
      let n ← fwrite tmpPath content
      if n ≠ content.length then do
        let _ ← fclose tmpPath
        pure (-1)
      else do
        let rc ← fclose tmpPath
        if rc ≠ 0 then pure (-1) else rename tmpPath path

/-- `ts_write_with_backup` -/
def tsWriteWithBackup (path content : Bytes) : FileProg ℤ := do
  let rc ← mkdirParentRecursive path
  if rc ≠ 0 then pure (-1)
  else do
    let rc ← access path
    if rc = 0 then do
      let rc ← copyFile path (suffixPath path (bytes ".bak"))
      if rc ≠ 0 then pure (-1) else tsAtomicWriteText path content
    else tsAtomicWriteText path content

/-- `ts_append_json_log`. The result of `fprintf` is not looked at. -/
def tsAppendJsonLog (path entryJson : Bytes) : FileProg ℤ := do
  let rc ← mkdirParentRecursive path
  if rc ≠ 0 then pure (-1)
  else do
    let opened ← fopenAppend path
    if opened = false then pure (-1)
    else do
      let _ ← fwrite path (entryJson ++ bytes "\n")
      fclose path

/-! ## What a save promises -/

/-- A save of `content`, begun on the disk `d`: the file has its old state or the complete new
content, and its old state when a failure is returned. -/
def ReplacesAtomically (path content : Bytes) (d : Disk)
    (out : Disk × Option (ℤ × List CallOutcome)) : Prop :=
  (out.1.file path = d.file path ∨ out.1.file path = some content) ∧
    ∀ rc rest, out.2 = some (rc, rest) → rc ≠ 0 → out.1.file path = d.file path

/-- A loss is harmless if `access` has overlooked the file and the backup is complete already. -/
def BackupKept (path : Bytes) (d : Disk) (trace : List (FileCall × CallOutcome)) : Prop :=
  ∀ item ∈ trace, Lossy item = true →
    (∃ p there, item.1 = .access p there) ∧ d.file (bakOf path) = d.file path

end TermSync
