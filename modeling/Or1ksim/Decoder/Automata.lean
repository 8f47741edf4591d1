import Or1ksim.Lib.Bits
import Or1ksim.Lib.Scan

/-!
# The decoding automaton

Building and running the instruction decoder of `cpu/or32/or32.c`.  `W` is the width of
`unsigned long` on the host; `int` has 32 bits.

* `insnExtract` — the positions of one symbol in an encoding string;
* `coverInsn`, `buildAutomata` — the recursive search for common mask bits that packs the
  automaton into one array;
* `insnDecode` — the walk through it.
-/

namespace Or1ksim
namespace Decoder

open Scan

/-- The text of an encoding. -/
abbrev Encoding := List Char

/-- The loop of `insn_extract`, at position `opcPos` and with `skip` characters of a hexadecimal
digit still to step over. -/
def insnExtractFrom (W : ℕ) (paramCh : Char) : Encoding → ℕ → ℕ → BitVec W → BitVec W
  | [], _, _, ret => ret
  | _ :: cs, skip + 1, opcPos, ret => insnExtractFrom W paramCh cs skip opcPos ret
  | c :: cs, 0, opcPos, ret =>
    if c = '0' ∧ cs.head? = some 'x' then
      let opcPos := opcPos - 4
      let tmp := strtol16 W cs.tail
      let ret :=
        if paramCh = '0' then ret ||| ((15 - tmp) <<< opcPos)
        else if paramCh = '1' then ret ||| (tmp <<< opcPos)
        else ret
      insnExtractFrom W paramCh cs 2 opcPos ret
    else if c = '0' || c = '1' || c = '-' || isAlpha c then
      -- The shifted `1` is an `int` and is sign-extended into `ret`.
      let opcPos := opcPos - 1
      let ret := if paramCh = c then ret ||| ((1#32 <<< opcPos).signExtend W) else ret
      insnExtractFrom W paramCh cs 0 opcPos ret
    else insnExtractFrom W paramCh cs 0 opcPos ret

/-- `insn_extract`: the bits of the instruction word at which the encoding has `paramCh`. -/
def insnExtract (W : ℕ) (paramCh : Char) (enc : Encoding) : BitVec W :=
  insnExtractFrom W paramCh enc 0 32 0

/-- Mask and value of every instruction (the static part of `or1ksim_ti`). -/
structure Patterns (W : ℕ) where
  /-- `NUM_OPCODES`. -/
  num : ℕ
  /-- Fixed bits of instruction `j`. -/
  insnMask : ℕ → BitVec W
  /-- Values of the fixed bits. -/
  insn : ℕ → BitVec W

/-- The patterns `build_automata` extracts from a table of encodings. -/
def Patterns.ofEncodings (W : ℕ) (encs : List Encoding) : Patterns W where
  num := encs.length
  insnMask j := insnExtract W '1' (encs.getD j []) ||| insnExtract W '0' (encs.getD j [])
  insn j := insnExtract W '1' (encs.getD j [])

/-- The word agrees with the fixed bits of instruction `j`. -/
def Patterns.Matches {W : ℕ} (P : Patterns W) (insn : BitVec 32) (j : ℕ) : Prop :=
  P.insnMask j &&& insn.setWidth W = P.insn j

instance {W : ℕ} (P : Patterns W) (insn : BitVec 32) (j : ℕ) : Decidable (P.Matches insn j) :=
  inferInstanceAs (Decidable (_ = _))

/-- `LEAF_FLAG`. -/
def leafFlag (W : ℕ) : BitVec W := (0x80000000#32).setWidth W

/-- `MAX_AUTOMATA_SIZE`. -/
def maxAutomataSize : ℕ := 1200

/-- `MAX_LEN`. -/
def maxLen : ℕ := 8

/-- The globals that building changes. -/
structure Build (W : ℕ) where
  /-- `or1ksim_automata`. -/
  automata : ℕ → BitVec W
  /-- `in_pass` of every instruction. -/
  inPass : ℕ → ℕ
  /-- `curpass`. -/
  curpass : ℕ
  /-- `nuncovered`. -/
  nuncovered : ℤ

/-- Why building stops. -/
inductive BuildError where
  /-- "%i instructions match mask 0x%08X": no bit separates the candidates. -/
  | matchMask (ninstr : ℕ) (mask : BitVec 32)
  /-- "Automata too large. Increase MAX_AUTOMATA_SIZE." -/
  | tooLarge
  /-- The table is empty, so that the end of the automaton is a null pointer. -/
  | noEnd
  /-- The recursion bound of the model is used up. -/
  | depth
deriving DecidableEq, Repr

section Cover

variable {W : ℕ} (P : Patterns W)

/-- The instructions of a pass, in table order. -/
def cands (b : Build W) (pass : ℕ) : List ℕ :=
  (List.range P.num).filter fun j => decide (b.inPass j = pass)

/-- The inner loop of the search for the longest match: try lengths from `len` on, at most `k` of
them, and stop at the first that does not fit. -/
def matchFrom (curMask : BitVec W) (i : ℕ) : ℕ → ℕ → ℕ × ℕ → ℕ × ℕ
  | 0, _, best => best
  | k + 1, len, best =>
    if Bits.lowMask W len &&& (curMask >>> i) = Bits.lowMask W len then
      matchFrom curMask i k (len + 1) (i, len)
    else best

/-- `best_first` and `best_len`: the longest run of common mask bits, up to seven. -/
def longestMatch (curMask : BitVec W) : ℕ × ℕ :=
  (List.range 32).foldl
    (fun best i => matchFrom curMask i (min maxLen (33 - i) - (best.2 + 1)) (best.2 + 1) best)
    (0, 0)

/-- The value of the field of instruction `j` that a node selects on. -/
def field (first len : ℕ) (j : ℕ) : BitVec W := (P.insn j >>> first) &&& Bits.lowMask W len

/-- Move the instructions of pass `pass` with field value `i` into the current pass. -/
def mark (b : Build W) (pass first len i : ℕ) : ℕ → ℕ := fun j =>
  if b.inPass j = pass ∧ field P first len j = BitVec.ofNat W i ∧
      (P.insnMask j >>> first) &&& Bits.lowMask W len = Bits.lowMask W len then b.curpass
  else b.inPass j

/-- Store one cell of the automaton. -/
def Build.store (b : Build W) (a : ℕ) (v : BitVec W) : Build W :=
  { b with automata := Function.update b.automata a v }

/-- What `*next` gets: the start of the child's subtree, or zero when there is none. -/
def childCell (W cur : ℕ) : Option ℕ → BitVec W
  | some _ => BitVec.ofNat W cur
  | none => 0

/-- The loop over the children of a node: `k` more children, from number `i` on.  `cover` builds
one of them. -/
def coverChildren (cover : ℕ → ℕ → Build W → Except BuildError (Option ℕ × Build W))
    (pass first len next : ℕ) : ℕ → ℕ → ℕ → Build W → Except BuildError (ℕ × Build W)
  | 0, _, cur, b => .ok (cur, b)
  | k + 1, i, cur, b => do
    let b := { b with curpass := b.curpass + 1 }
    let b := { b with inPass := mark P b pass first len i }
    let (c, b) ← cover cur b.curpass b
    coverChildren cover pass first len next k (i + 1) (c.getD cur)
      (b.store (next + i) (childCell W cur c))

/-- `cur_mask`: the mask bits that all the candidates share. -/
def commonMask (mask : BitVec 32) (ds : List ℕ) : BitVec W :=
  ds.foldl (fun m j => m &&& P.insnMask j) (mask.setWidth W)

/-- The mask left for the children of a node that selects on a field. -/
def childMask (W : ℕ) (mask : BitVec 32) (first len : ℕ) : BitVec 32 :=
  (mask.setWidth W &&& ~~~(Bits.lowMask W len <<< first)).setWidth 32

/-- `cover_insn`, with a bound on the recursion depth.  The result is the cell after the subtree,
or `none` where the source returns a null pointer because there is nothing to cover. -/
def coverInsn : ℕ → ℕ → ℕ → BitVec 32 → Build W → Except BuildError (Option ℕ × Build W)
  | 0, _, _, _, _ => .error .depth
  | fuel + 1, cur, pass, mask, b =>
    match cands P b pass with
    | [] => .ok (none, b)
    | [lastMatch] =>
      .ok (some (cur + 1),
        { b.store cur (leafFlag W ||| BitVec.ofNat W lastMatch) with
          nuncovered := b.nuncovered - 1 })
    | ds =>
      let best := longestMatch (commonMask P mask ds)
      if best.2 = 0 then .error (.matchMask ds.length mask)
      else
        (coverChildren P
          (fun cur pass b => coverInsn fuel cur pass (childMask W mask best.1 best.2) b)
          pass best.1 best.2 (cur + 2) (2 ^ best.2) 0 (cur + 2 + 2 ^ best.2)
          ((b.store cur (BitVec.ofNat W best.1)).store (cur + 1) (Bits.lowMask W best.2))).map
            fun r => (some r.1, r.2)

end Cover

/-- Enough depth for any table: every level uses up a bit of the mask. -/
def coverDepth : ℕ := 33

/-- The state in which `build_automata` starts to cover: every instruction in pass zero.  `junk` is
what the fresh array holds. -/
def Build.init {W : ℕ} (P : Patterns W) (junk : ℕ → BitVec W) : Build W :=
  ⟨junk, fun _ => 0, 0, P.num⟩

/-- The automaton part of `build_automata`. -/
def buildAutomata {W : ℕ} (P : Patterns W) (junk : ℕ → BitVec W) :
    Except BuildError (ℕ → BitVec W) :=
  match coverInsn P coverDepth 0 0 0xffffffff#32 (Build.init P junk) with
  | .error err => .error err
  | .ok (none, _) => .error .noEnd
  | .ok (some e, b) => if maxAutomataSize < e then .error .tooLarge else .ok b.automata

/-- The loop of `or1ksim_insn_decode` from cell `a`, with at most `fuel` more nodes. -/
def decodeFrom {W : ℕ} (P : Patterns W) (automata : ℕ → BitVec W) (insn : BitVec 32) :
    ℕ → ℕ → Option ℤ
  | 0, _ => none
  | fuel + 1, a =>
    if automata a &&& leafFlag W = 0 then
      let first := ((automata a).setWidth 32).toNat
      let i := ((insn >>> first).setWidth W &&& automata (a + 1)).toNat
      if automata (a + 2 + i) = 0 then some (-1)
      else decodeFrom P automata insn fuel (automata (a + 2 + i)).toNat
    else
      let i := (automata a &&& (~~~0x80000000#32).setWidth W).toNat
      if P.insnMask i &&& insn.setWidth W = P.insn i then some i else some (-1)

/-- `or1ksim_insn_decode`: the index of the instruction, or `-1`. -/
def insnDecode {W : ℕ} (P : Patterns W) (automata : ℕ → BitVec W) (insn : BitVec 32) : Option ℤ :=
  decodeFrom P automata insn maxAutomataSize 0

end Decoder
end Or1ksim
