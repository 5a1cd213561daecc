import KvStore.Engine.Interface

/-!
# The commands of `server/command.go`

A client's `Put` or `Delete` travels through the log as bytes: a type byte, then key and value, each
with its length.

* `decodeCommand_encodeCommand`: what a client proposes is what every node applies.
* `decodeAndValidateCommand`: what `applyCommitted` makes of an entry, with its errors.
-/

namespace KvStore

open Codec

/-- The errors that the result channel of a request can get. -/
inductive ServerError
  | stopped
  | raft (e : Error)
  | malformed (index : ℕ)
  | unknownCommand (type : UInt8) (index : ℕ)
  | applying (index : ℕ) (e : EngineError)
  | superseded
  deriving DecidableEq, Repr

/-- `command`; its type is a byte, and a decoded one may be any. -/
structure Command where
  type : UInt8
  key : Bytes
  value : Bytes
  deriving DecidableEq, Repr

/-- `cmdPut`. -/
def cmdPut : UInt8 := 0

/-- `cmdDelete`. -/
def cmdDelete : UInt8 := 1

/-- `encodeCommand`. -/
def encodeCommand (c : Command) : Bytes :=
  c.type :: (writeLenPrefixed c.key ++ writeLenPrefixed c.value)

/-- `decodeCommand`; `none` is `errMalformedCommand`. Bytes after the value are not looked at. -/
def decodeCommand : Bytes → Option Command
  | [] => none
  | type :: data => do
    let (key, data) ← readLenPrefixed data
    let (value, _) ← readLenPrefixed data
    return ⟨type, key, value⟩

/-- `decodeAndValidateCommand`. -/
def decodeAndValidateCommand (entry : LogEntry) : Except ServerError Command :=
  match decodeCommand entry.data with
  | none => .error (.malformed entry.index)
  | some cmd =>
    if cmd.type ≠ cmdPut ∧ cmd.type ≠ cmdDelete then
      .error (.unknownCommand cmd.type entry.index)
    else .ok cmd

/-- The operation a command is for the engine. -/
def Command.op (cmd : Command) : BatchOp := ⟨cmd.key, cmd.value, cmd.type = cmdDelete⟩

/-- The operations of the well-formed commands among the entries, in order. -/
def opsOf (es : List LogEntry) : List BatchOp :=
  es.filterMap fun e => (decodeAndValidateCommand e).toOption.map Command.op

theorem opsOf_append (es es' : List LogEntry) : opsOf (es ++ es') = opsOf es ++ opsOf es' :=
  List.filterMap_append

/-- **A command is read back from its bytes**, as long as key and value fit their length fields. -/
theorem decodeCommand_encodeCommand (c : Command)
    (hfit : c.key.length + c.value.length + 4 < 2 ^ 32) :
    decodeCommand (encodeCommand c) = some c := by
  have hkey : readLenPrefixed (writeLenPrefixed c.key ++ writeLenPrefixed c.value) =
      some (c.key, writeLenPrefixed c.value) := by
    apply readLenPrefixed_append (by omega)
    have hlen : (c.key ++ writeLenPrefixed c.value).length =
        c.key.length + (4 + c.value.length) := by
      rw [List.length_append, writeLenPrefixed, List.length_append]
      rfl
    rw [hlen, Nat.mod_eq_of_lt (by omega)]
    omega
  have hvalue : readLenPrefixed (writeLenPrefixed c.value) = some (c.value, []) := by
    have h := readLenPrefixed_append (b := c.value) (by omega) [] (by
      rw [List.append_nil, Nat.mod_eq_of_lt (by omega)])
    rwa [List.append_nil] at h
  rw [encodeCommand, decodeCommand, hkey]
  simp only [Option.bind_eq_bind, Option.bind_some, hvalue]
  rfl

end KvStore
