import Or1ksim.Cpu.State

/-!
# Address translation and memory accesses

The data and instruction MMUs (`mmu/dmmu.c`, `mmu/immu.c`) and the accesses of the processor
(`cpu/common/abstract.c`).  The two MMUs differ in their registers, their protection bits and their
exceptions; `Mmu` has what they share.

* `dmmuTranslate`, `immuTranslate` — translation, which may enter an exception;
* `peekIntoDtlb`, `peekIntoItlb` — the same without side effects;
* `evalMem`, `setMem`, `evalInsn` — loads, stores and instruction fetches.
-/

namespace Or1ksim
namespace Cpu

open Bits

/-! ### Precalculated values -/

namespace MmuConfig

variable (c : MmuConfig)

/-- `page_offset_mask`. -/
def pageOffsetMask : Word := c.pagesize - 1

/-- `page_mask`. -/
def pageMask : Word := ~~~c.pageOffsetMask

/-- `vpn_mask`. -/
def vpnMask : Word := ~~~(c.pagesize * BitVec.ofNat 32 c.nsets - 1)

/-- `set_mask`. -/
def setMask : Word := BitVec.ofNat 32 (c.nsets - 1)

/-- The LRU field of a match register (`SPR_DTLBMR_LRU`, `SPR_ITLBMR_LRU`). -/
def lruField : Word := 0xc0

/-- `lru_reload`. -/
def lruReload : Word := (c.setMask <<< 6) &&& lruField

/-- The set an address falls into. -/
def set (va : Addr) : Word := ((va &&& c.pageMask) >>> Nat.log2 c.pagesize.toNat) &&& c.setMask

end MmuConfig

/-- What the two MMUs do not share. -/
structure Mmu where
  /-- Geometry. -/
  config : MmuConfig
  /-- The first match register; the translate register of an entry is 128 further on and the next
  way 256. -/
  tlbmr : Regno
  /-- The enable bit in the supervision register. -/
  enable : ℕ
  /-- The bit in the unit present register. -/
  present : ℕ
  /-- The page fault exception. -/
  pageFault : Exception
  /-- The TLB miss exception. -/
  tlbMiss : Exception

namespace Mmu

variable (m : Mmu)

/-- The match register of a way. -/
def mr (va : Addr) (way : ℕ) : Regno :=
  m.tlbmr + (m.config.set va).setWidth 16 + BitVec.ofNat 16 (way * 256)

/-- Translation is off. -/
def off (s : Sim) : Bool := !s.srBit m.enable || !(s.sprs sprUPR).getLsbD m.present

/-- `dmmu_find_tlbmr`, `immu_find_tlbmr`: the match register of the first way that has the page. -/
def findTlbmr (sprs : Regno → Word) (va : Addr) : Option Regno :=
  ((List.range m.config.nways).find? fun way =>
    decide (sprs (m.mr va way) &&& m.config.vpnMask = va &&& m.config.vpnMask) &&
      (sprs (m.mr va way)).getLsbD 0).map (m.mr va)

/-- One step of the "Set LRUs" loop. -/
def ageLru (s : Sim) (r : Regno) : Sim :=
  let v := s.sprs r
  if v &&& MmuConfig.lruField ≠ 0 then
    s.setSpr r ((v &&& ~~~MmuConfig.lruField) ||| ((v &&& MmuConfig.lruField) - 0x40))
  else s

/-- Age the ways of the set and reload the LRU field of the entry that was hit. -/
def touchLru (s : Sim) (va : Addr) (hit : Regno) : Sim :=
  let s := ((List.range m.config.nways).map (m.mr va)).foldl ageLru s
  s.setSpr hit (s.sprs hit ||| m.config.lruReload)

/-- The physical address of a translate register. -/
def physical (tr : Word) (va : Addr) : Addr :=
  (tr &&& 0xffffe000) ||| (va &&& m.config.pageOffsetMask)

/-- `dmmu_translate`, `immu_translate`; `fault` tests the protection bits. -/
def translate (fault : Bool → Word → Bool) (s : Sim) (va : Addr) : Addr × Sim :=
  if m.off s then (va, s)
  else
    match m.findTlbmr s.sprs va with
    | some hit =>
      let s := m.touchLru s va hit
      let s :=
        if fault (s.srBit srSM) (s.sprs (hit + 128)) then exceptHandle s m.pageFault va else s
      (m.physical (s.sprs (hit + 128)) va, s)
    | none => (0, exceptHandle s m.tlbMiss va)

/-- `peek_into_dtlb`, `peek_into_itlb`: zero where translation would raise an exception. -/
def peek (fault : Bool → Word → Bool) (s : Sim) (va : Addr) : Addr :=
  if m.off s then va
  else
    match m.findTlbmr s.sprs va with
    | some hit =>
      if fault (s.srBit srSM) (s.sprs (hit + 128)) then 0 else m.physical (s.sprs (hit + 128)) va
    | none => 0

end Mmu

/-- The data MMU. -/
def Config.dataMmu (cfg : Config) : Mmu where
  config := cfg.dmmu
  tlbmr := sprDTLBMR
  enable := srDME
  present := 3
  pageFault := .dpf
  tlbMiss := .dtlbmiss

/-- The instruction MMU. -/
def Config.insnMmu (cfg : Config) : Mmu where
  config := cfg.immu
  tlbmr := sprITLBMR
  enable := srIME
  present := 4
  pageFault := .ipf
  tlbMiss := .itlbmiss

/-- The page fault test of the data MMU: `SPR_DTLBTR_SWE`, `SRE`, `UWE` and `URE`. -/
def dataFault (write : Bool) (sm : Bool) (tr : Word) : Bool :=
  if sm then (write && !tr.getLsbD 9) || (!write && !tr.getLsbD 8)
  else (write && !tr.getLsbD 7) || (!write && !tr.getLsbD 6)

/-- The page fault test of the instruction MMU: `SPR_ITLBTR_SXE` and `UXE`. -/
def insnFault (sm : Bool) (tr : Word) : Bool := if sm then !tr.getLsbD 6 else !tr.getLsbD 7

/-- `dmmu_translate`. -/
def dmmuTranslate (cfg : Config) (s : Sim) (va : Addr) (write : Bool) : Addr × Sim :=
  cfg.dataMmu.translate (dataFault write) s va

/-- `immu_translate`. -/
def immuTranslate (cfg : Config) (s : Sim) (va : Addr) : Addr × Sim :=
  cfg.insnMmu.translate insnFault s va

/-- `peek_into_dtlb`. -/
def peekIntoDtlb (cfg : Config) (s : Sim) (va : Addr) (write : Bool) : Addr :=
  cfg.dataMmu.peek (dataFault write) s va

/-- `peek_into_itlb`. -/
def peekIntoItlb (cfg : Config) (s : Sim) (va : Addr) : Addr := cfg.insnMmu.peek insnFault s va

/-! ### Accesses of the processor -/

/-- `evalsim_mem8`, `evalsim_mem16`, `evalsim_mem32`: a bus error outside every area. -/
def evalsimMem (s : Sim) (pa va : Addr) (n : Width) : Word × Sim :=
  match s.mem.evalsimMem pa n with
  | some v => (v, s)
  | none => (0, exceptHandle s .buserr va)

/-- `setsim_mem8`, `setsim_mem16`, `setsim_mem32`. -/
def setsimMem (s : Sim) (pa va : Addr) (v : Word) (n : Width) : Sim :=
  match s.mem.setsimMem pa v n with
  | some mem => { s with mem := mem }
  | none => exceptHandle s .buserr va

/-- The address is not a multiple of the access width. -/
def misaligned (a : Addr) : Width → Bool
  | .w1 => false
  | .w2 => a.getLsbD 0
  | .w4 => decide (a &&& 3#32 ≠ 0)

/-- `eval_mem8`, `eval_mem16`, `eval_mem32`. -/
def evalMem (cfg : Config) (s : Sim) (a : Addr) (n : Width) : Word × Sim :=
  if misaligned a n then (0, exceptHandle s .align a)
  else
    let (pa, s) := dmmuTranslate cfg s a false
    if s.exceptPending then (0, s) else evalsimMem s pa a n

/-- `set_mem8`, `set_mem16`, `set_mem32`. -/
def setMem (cfg : Config) (s : Sim) (a : Addr) (v : Word) (n : Width) : Sim :=
  if misaligned a n then exceptHandle s .align a
  else
    let (pa, s) := dmmuTranslate cfg s a true
    if s.exceptPending then s else setsimMem s pa a v n

/-- `eval_insn`. -/
def evalInsn (cfg : Config) (s : Sim) (a : Addr) : Word × Sim :=
  let (pa, s) := immuTranslate cfg s a
  if s.exceptPending then (0, s) else evalsimMem s pa a .w4

end Cpu
end Or1ksim
