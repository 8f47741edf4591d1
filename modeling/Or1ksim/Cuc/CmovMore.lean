import Or1ksim.Cuc.Cse
import Or1ksim.Cuc.Edge
import Or1ksim.Cuc.RegDep
import Or1ksim.Cuc.Rewrite

/-!
# Rewriting CMOVs

`optimize_cmov_more` of `cuc/insn.c`, with the check of the references that it makes on its way.

* `cucCheck` — `cuc_check`, which stops the program where a reference is wrong;
* `cmovCase` — which of its cases the function takes at a CMOV;
* `optimizeCmovMore` — what it does there.
-/

namespace Or1ksim
namespace Cuc

variable {W : ℕ}

/-! ### Checks -/

/-- CMOVs and additions, whose operands are all conditions or none. -/
def Insn.isChoice (ii : Insn W) : Bool := decide (ii.index = .cmov) || decide (ii.index = .add)

/-- The destination of a condition: an anonymous wire, `FLAG_REG` or `LRBB_REG`. -/
def checkDest (ii : Insn W) : Bool :=
  match ii.op 0 with
  | .dest d => !(ii.isChoice && ii.cond) || (d.setWidth 32).msb ||
      decide (d = BitVec.ofNat W (maxRegs - 2)) || decide (d = BitVec.ofNat W lrbbReg)
  | _ => true

/-- An operand: references are inside, conditions where they belong, destinations at the front. -/
def checkOperand (f : Func W) (ii : Insn W) (k : OperandNo) : Bool :=
  match ii.op k with
  | .ref q => decide (f.InRange q) && (!ii.isChoice ||
      ((!decide (k < 3) || decide ((f.insn q).cond = ii.cond)) &&
        (!decide (k = 3) || (f.insn q).cond)))
  | .dest _ => decide (k = 0)
  | _ => true

/-- `cuc_check`: is there no anomaly? -/
def cucCheck (f : Func W) : Bool :=
  f.insns.all fun r => checkDest (f.insn r) && (List.finRange 5).all (checkOperand f (f.insn r))

/-- `insn_uses`: how many operands refer to an instruction. -/
def insnUses (f : Func W) (ref : Ref) : ℕ :=
  (f.insns.map fun r => (List.finRange 5).countP fun j => decide ((f.insn r).op j = .ref ref)).sum

/-! ### Comparisons -/

/-- The words of the operands that have none, `OPT_NONE` and `OPT_LRBB`: what was left there. -/
abbrev Stale (W : ℕ) := Ref → OperandNo → BitVec W

/-- Two operands have the same type and the same word. -/
def sameOperand (stale : Stale W) (f : Func W) (p : Ref) (j : OperandNo) (q : Ref)
    (k : OperandNo) : Bool :=
  match (f.insn p).op j, (f.insn q).op k with
  | .none, .none => decide (stale p j = stale q k)
  | .lrbb, .lrbb => decide (stale p j = stale q k)
  | x, y => decide (x = y)

/-- An operand in which two instructions differ; the words of registers are not compared, be they
destinations or inputs. -/
def differs (stale : Stale W) (f : Func W) (p q : Ref) (i : OperandNo) : Bool :=
  match (f.insn p).op i, (f.insn q).op i with
  | .register _, .register _ => false
  | .dest _, .dest _ => false
  | _, _ => !sameOperand stale f p i q i

/-! ### The cases -/

/-- What `optimize_cmov_more` may do at a CMOV. -/
inductive CmovCase (W : ℕ) where
  /-- Arm `t` is dropped: both arms are the same, or one is the CMOV itself. -/
  | same (t : OperandNo)
  /-- The CMOV at `r` in arm `t` has the same arm `u`, and no other user. -/
  | nested (t u : OperandNo) (r : Ref)
  /-- The condition is a move of `y`. -/
  | through (y : Operand W)
  /-- The CMOV, its condition maybe negated, goes before the operation of `p` and `q`, which differ
  in operand `d`. -/
  | push (ii : Insn W) (p q : Ref) (d : OperandNo)
  /-- The CMOV, its condition maybe negated. -/
  | rest (ii : Insn W)

/-- The CMOV in arm `t`, if the two are to be joined; `none` where a check fails. -/
def nestedArm (stale : Stale W) (f : Func W) (ref : Ref) (t u : OperandNo) :
    Option (Option Ref) :=
  match (f.insn ref).op t with
  | .ref r =>
    if (f.insn r).index ≠ .cmov then some Option.none
    else if cucCheck f = false ∨ (f.insn r).cond = true then Option.none
    else if sameOperand stale f r u ref u = false ∨ 1 < insnUses f r then some Option.none
    else some (some r)
  | _ => some Option.none

/-- The loop over the arms. -/
def nestedCase (stale : Stale W) (f : Func W) (ref : Ref) :
    Option (Option (OperandNo × OperandNo × Ref)) :=
  if (f.insn ref).cond = true then some Option.none
  else (nestedArm stale f ref 1 2).bind fun
    | some r => some (some (1, 2, r))
    | Option.none => (nestedArm stale f ref 2 1).map (Option.map fun r => (2, 1, r))

/-- `cmov x, 0, 1, y` -/
def negates (prev : Insn W) : Bool :=
  match prev.op 1, prev.op 2 with
  | .const a, .const c => decide (a = 0) && decide (c ≠ 0)
  | _, _ => false

/-- The arms exchanged, with another condition. -/
def swapArms (ii : Insn W) (y : Operand W) : Insn W :=
  { ii with
    op := Function.update (Function.update (Function.update ii.op 1 (ii.op 2)) 2 (ii.op 1)) 3 y }

/-- The condition of a CMOV: the source of a move, or the CMOV to go on with; `none` where it is
not marked as a condition. -/
def throughCondition (f : Func W) (ii : Insn W) : Option (Operand W ⊕ Insn W) :=
  match ii.op 3 with
  | .ref q =>
    if (f.insn q).cond = false then Option.none
    else if (f.insn q).index = .cmov then
      some (.inr (if negates (f.insn q) then swapArms ii ((f.insn q).op 3) else ii))
    else if (f.insn q).index = .add ∧ (f.insn q).op 2 = .const 0 then
      some (.inl ((f.insn q).op 1))
    else some (.inr ii)
  | _ => some (.inr ii)

/-- The instructions in the arms and the one operand in which they differ, if the CMOV can be
pushed through them. -/
def pushCase (stale : Stale W) (f : Func W) (ref : Ref) : Option (Ref × Ref × OperandNo) :=
  match (f.insn ref).op 1, (f.insn ref).op 2 with
  | .ref p, .ref q =>
    if (f.insn ref).cond = false ∧ (f.insn p).index = (f.insn q).index ∧
        (f.insn p).volatile = false ∧ (f.insn q).volatile = false then
      match (List.finRange 5).filter (differs stale f p q) with
      | [d] => some (p, q, d)
      | _ => Option.none
    else Option.none
  | _, _ => Option.none

/-- The case that `optimize_cmov_more` takes; `none` where a check stops it. -/
def cmovCase (stale : Stale W) (f : Func W) (ref : Ref) : Option (CmovCase W) :=
  if (f.insn ref).index ≠ .cmov then Option.none
  else if (f.insn ref).op 2 = .ref ref ∨ sameOperand stale f ref 1 ref 2 = true then
    some (.same 2)
  else if (f.insn ref).op 1 = .ref ref then some (.same 1)
  else (nestedCase stale f ref).bind fun
    | some (t, u, r) => some (.nested t u r)
    | Option.none => (throughCondition f (f.insn ref)).map fun
      | .inl y => .through y
      | .inr ii =>
        match pushCase stale (f.set ref ii) ref with
        | some (p, q, d) => .push ii p q d
        | Option.none => .rest ii

/-! ### The rewriting -/

/-- Replaces one instruction, without its dependencies. -/
def Linked.put (f : Linked W) (ref : Ref) (ii : Insn W) : Linked W :=
  { f with insn := Function.update f.insn ref ii }

/-- The addition of zero that a CMOV without arm `t` is. -/
def dropArm (ii : Insn W) (t : OperandNo) : Insn W :=
  { ii with
    index := .add
    op := Function.update (Function.update ii.op t (.const 0)) 3 .none }

/-- The anonymous destination, `-1`. -/
def anonymous : Operand W := .dest (BitVec.allOnes W)

/-- The inner CMOV becomes the condition, of the conditions `C2`, `C1` and `C2`. -/
def joinedCondition (ii prev : Insn W) (t u : OperandNo) : Insn W :=
  { prev with
    cond := true
    op := Function.update (Function.update (Function.update (Function.update prev.op t (ii.op 3))
      u (prev.op 3)) 3 (ii.op 3)) 0 anonymous }

/-- The outer CMOV takes over the arms of the inner one. -/
def joinedChoice (ii prev : Insn W) (t u : OperandNo) (r : Ref) : Insn W :=
  { ii with
    op := Function.update (Function.update (Function.update ii.op 3 (.ref r)) t (prev.op t))
      u (prev.op u) }

/-- Joins two CMOVs. -/
def joinCmovs (f : Linked W) (ref r : Ref) (t u : OperandNo) : Linked W :=
  (f.put r (joinedCondition (f.insn ref) (f.insn r) t u)).put ref
    (joinedChoice (f.insn ref) (f.insn r) t u r)

/-- The CMOV of the operands `x` and `y` that is put before the operation; a condition if both are,
`none` where only the first is. -/
def pushedCmov (f : Func W) (ii : Insn W) (x y : Operand W) : Option (Insn W) :=
  let cmov := { ii with
    index := .cmov
    cond := false
    op := Function.update (Function.update (Function.update ii.op 0 anonymous) 1 x) 2 y }
  match x, y with
  | .ref p, .ref q =>
    if (f.insn p).cond = true then
      if (f.insn q).cond = true then some { cmov with cond := true } else Option.none
    else some cmov
  | _, _ => some cmov

/-- The CMOV and the operation, in their new places. -/
def pushedInsns (f : Linked W) (ref ref2 p : Ref) (d : OperandNo) (cmov : Insn W) : Linked W :=
  { f with
    insn := Function.update (Function.update f.insn ref cmov) ref2
      { f.insn p with op := Function.update (f.insn p).op d (.ref ref) }
    dep := Function.update (Function.update f.dep ref (f.dep ref2)) ref2 (f.dep p) }

/-- Pushes the CMOV at `ref` through the instructions in its arms, which differ in operand `d`. -/
def pushThrough (f : Linked W) (ref : Ref) (d : OperandNo) : Option (Linked W) :=
  let g := insertInsns f ref 1
  let ref2 : Ref := ⟨ref.bb, ref.i + 1⟩
  if maxInsns ≤ f.ninsn ref.bb + 1 ∨ cucCheck g.toFunc = false then Option.none
  else match (g.insn ref2).op 1, (g.insn ref2).op 2 with
    | .ref p, .ref q =>
      (pushedCmov g.toFunc (g.insn ref2) ((g.insn p).op d) ((g.insn q).op d)).bind fun cmov =>
        let h := pushedInsns g ref ref2 p d cmov
        if cucCheck h.toFunc then some h else Option.none
    | _, _ => Option.none

/-- What is done in each case. -/
def rewriteCmov (f : Linked W) (ref : Ref) : CmovCase W → Option (Bool × Linked W)
  | .same t => some (true, f.put ref (dropArm (f.insn ref) t))
  | .nested t u r =>
    let g := joinCmovs f ref r t u
    if cucCheck g.toFunc then some (true, g) else Option.none
  | .through y => some (true, f.put ref
      { f.insn ref with op := Function.update (f.insn ref).op 3 y })
  | .push ii _ _ d => (pushThrough (f.put ref ii) ref d).map fun g => (true, g)
  | .rest ii => some (false, f.put ref ii)

/-- `optimize_cmov_more`; `none` where an assertion or `cuc_check` stops the program. -/
def optimizeCmovMore (stale : Stale W) (f : Linked W) (ref : Ref) : Option (Bool × Linked W) :=
  (cmovCase stale f.toFunc ref).bind (rewriteCmov f ref)

end Cuc
end Or1ksim
