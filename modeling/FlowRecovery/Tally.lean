import FlowRecovery.Flow

/-!
# `FlowRecovery.Tally`: what is counted

Counters and one histogram that go along with disassembly,
classification and exploration. `Tally.counters` lists what has been
counted under the published names; nothing counted is not listed.
-/

set_option autoImplicit false

namespace FlowRecovery

/-- What has been counted so far. -/
structure Tally where
  blocksDisassembled : Nat := 0
  decodeFailures : Nat := 0
  /-- The kind of every classified block, the newest first. -/
  classified : List FlowKind := []
  classifyFailures : Nat := 0
  functionsExplored : Nat := 0
  /-- The number of blocks of every explored function, as far as 32 bits
  can tell. -/
  functionBlocks : List Nat := []
deriving DecidableEq, Repr

namespace Tally

/-- Blocks have been disassembled. -/
def countDisassembled (blocks : Nat) (t : Tally) : Tally :=
  { t with blocksDisassembled := t.blocksDisassembled + blocks }

/-- An instruction could not be decoded. -/
def countDecodeFailure (t : Tally) : Tally :=
  { t with decodeFailures := t.decodeFailures + 1 }

/-- A block has been classified. -/
def countClassified (kind : FlowKind) (t : Tally) : Tally :=
  { t with classified := kind :: t.classified }

/-- A block could not be classified. -/
def countClassifyFailure (t : Tally) : Tally :=
  { t with classifyFailures := t.classifyFailures + 1 }

/-- A function has been explored. -/
def countFunction (blocks : Nat) (t : Tally) : Tally :=
  { t with
    functionsExplored := t.functionsExplored + 1
    functionBlocks := min blocks 0xffffffff :: t.functionBlocks }

/-- What is counted by two tallies together. -/
def merge (s t : Tally) : Tally where
  blocksDisassembled := s.blocksDisassembled + t.blocksDisassembled
  decodeFailures := s.decodeFailures + t.decodeFailures
  classified := s.classified ++ t.classified
  classifyFailures := s.classifyFailures + t.classifyFailures
  functionsExplored := s.functionsExplored + t.functionsExplored
  functionBlocks := s.functionBlocks ++ t.functionBlocks

end Tally

/-- A published figure: a total, a total per label, or samples. -/
structure Metric where
  name : String
  isHistogram : Bool
  description : String
deriving DecidableEq, Repr

namespace Metric

/-- How many blocks were disassembled. -/
def blocksDisassembled : Metric :=
  ⟨"cfr_blocks_disassembled_total", false, "Total blocks produced by disassembly"⟩

/-- How often decoding failed. -/
def decodeFailures : Metric :=
  ⟨"cfr_decode_failures_total", false, "Total instructions that failed to decode or translate"⟩

/-- How many blocks were classified, by kind. -/
def blocksClassified : Metric :=
  ⟨"cfr_blocks_classified_total", false, "Total blocks classified, labelled by terminator kind"⟩

/-- How many blocks no rule explained. -/
def classifyFailures : Metric :=
  ⟨"cfr_classify_failures_total", false, "Total blocks no classifier could explain"⟩

/-- How many functions were explored. -/
def functionsExplored : Metric :=
  ⟨"cfr_functions_explored_total", false, "Total functions explored"⟩

/-- How large they were. -/
def functionBlocks : Metric :=
  ⟨"cfr_function_blocks", true, "Blocks discovered per function"⟩

/-- All figures, in the order they are announced. -/
def all : List Metric :=
  [blocksDisassembled, decodeFailures, blocksClassified, classifyFailures, functionsExplored,
    functionBlocks]

end Metric

namespace Tally

/-- How many classified blocks are of this kind. -/
def classifiedAs (t : Tally) (kind : FlowKind) : Nat :=
  t.classified.count kind

/-- The kinds that have been classified, each once. -/
def kinds (t : Tally) : List FlowKind :=
  t.classified.eraseDups

/-- The counters that have counted something. The classified blocks are
listed by kind, with the label in braces. -/
def counters (t : Tally) : List (String × Nat) :=
  let plain : List (String × Nat) :=
    [(Metric.blocksDisassembled.name, t.blocksDisassembled),
     (Metric.decodeFailures.name, t.decodeFailures),
     (Metric.classifyFailures.name, t.classifyFailures),
     (Metric.functionsExplored.name, t.functionsExplored)]
  let labelled := t.kinds.map fun kind =>
    (Metric.blocksClassified.name ++ "\x7bkind=" ++ kind.label ++ "\x7d", t.classifiedAs kind)
  plain.filter (·.2 ≠ 0) ++ labelled

/-- The samples of the histogram, in increasing order. -/
def samples (t : Tally) : List Nat :=
  t.functionBlocks.mergeSort (fun a b => decide (a ≤ b))

end Tally

end FlowRecovery
