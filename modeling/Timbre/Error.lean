import Timbre.Fault
import Timbre.Parameter

/-! # Errors

Every failure is a cause with the data that its text shows; the wording is in the `message`
functions alone.
-/
namespace Timbre

/-- The lowest and the highest sampling rate, in Hz. -/
def minRate : Nat := 2000

def maxRate : Nat := 48000

def maxThreads : Nat := 256

inductive Refusal
  | windowTooLong (length : Nat)
  | notEven (minimum : Nat)
  | frequencyRange (low high nyquist : Single)
  | emptySpectrum
  | notDivisible (depth : Nat)
  | coverage (covered size : Nat)
  | emptySignal
  | tempoRange (low high : Nat)
  | groups (count bands : Nat)
  | combTooLong (pulses bpm limit : Nat)
  | builtFor (format : String)
deriving DecidableEq

def Refusal.message : Refusal → String
  | .windowTooLong length => s!"window length {length} exceeds the signal"
  | .notEven minimum => s!"size must be even and at least {minimum}"
  | .frequencyRange low high nyquist =>
    "frequency range [" ++ Single.plain low ++ ", " ++ Single.plain high ++
      "] Hz does not fit below the Nyquist frequency " ++ Single.plain nyquist ++ " Hz"
  | .emptySpectrum => "empty spectrum"
  | .notDivisible depth => s!"size is not divisible by 2^{depth}"
  | .coverage covered size => s!"subband tree covers {covered} values instead of {size}"
  | .emptySignal => "empty signal"
  | .tempoRange low high => s!"tempo range [{low}, {high}] is empty"
  | .groups count bands => s!"{count} buffers do not split into groups of {bands} bands"
  | .combTooLong pulses bpm limit =>
    s!"a comb of {pulses} pulses at {bpm} bpm exceeds {limit} samples"
  | .builtFor format => "pipeline was built for " ++ format

inductive Flaw
  | length (found size : Nat)
  | sample (index : Nat) (text : String)
  | value (text : String)
deriving DecidableEq, Repr

def Flaw.message : Flaw → String
  | .length found size => s!"length {found} does not match format size {size}"
  | .sample index text => s!"[{index}] = {text}"
  | .value text => text

inductive TreeProblem
  | notFromRoot
  | notEveryNode
  | missingNode
  | repeatedNode
  | beforeParent
  | sharedItem
deriving DecidableEq, Repr

def TreeProblem.message : TreeProblem → String
  | .notFromRoot => "order does not start at the root"
  | .notEveryNode => "order does not visit every node exactly once"
  | .missingNode => "order refers to a missing node"
  | .repeatedNode => "order visits a node twice"
  | .beforeParent => "order schedules a node before its parent"
  | .sharedItem => "two nodes share an item"

inductive ConfigProblem
  | threads (count : Nat)
  | noMemory
  | emptyPath
  | emptyChain (feature : String)
  | noSize
  | noBuffers
  | noFeatures
deriving DecidableEq, Repr

def ConfigProblem.message : ConfigProblem → String
  | .threads count => s!"threads {count} out of range (1-{maxThreads})"
  | .noMemory => "memory_limit must be greater than 0"
  | .emptyPath => "dump_graph path is empty"
  | .emptyChain feature => "feature '" ++ feature ++ "' has an empty transform chain"
  | .noSize => "buffer size must be set"
  | .noBuffers => "at least one buffer is required"
  | .noFeatures => "no features declared"

inductive Error
  | invalidSamplingRate (hz : Nat)
  | samplingRateNotSet (format : String)
  | formatMismatch (expected found : String)
  | invalidFormat (format : String) (refusal : Refusal)
  | alreadyInitialized
  | notInitialized (transform : String)
  | invalidBuffer (format : String) (index : Nat) (flaw : Flaw)
  | bufferCountMismatch (expected found : Nat)
  | unknownTransform (name : String)
  | unknownParameter (transform parameter : String)
  | invalidParameter (transform parameter value : String) (problem : ValueProblem)
  | unknownStage (number : Nat)
  | duplicateFeature (name : String)
  | allocationExhausted (required limit : Nat)
  | invalidLayout (strategy : String)
  | malformedTree (problem : TreeProblem)
  | unknownNode (index : Nat)
  | invalidConfig (problem : ConfigProblem)
  | io
  | fault (transform : String) (cause : Fault)
deriving DecidableEq

def Fault.message : Fault → String
  | .outOfRange => "index out of range"
  | .belowZero => "subtraction below zero"
  | .divisionByZero => "division by zero"
  | .wideShift => "shift too wide"
  | .blocked => "no scratch slot becomes free"

def Error.message : Error → String
  | .invalidSamplingRate hz =>
    s!"Invalid sampling rate: {hz}. Must be between {minRate} and {maxRate} Hz"
  | .samplingRateNotSet format =>
    "Sampling rate of format '" ++ format ++ "' was read before it was set"
  | .formatMismatch expected found =>
    "Format mismatch: expected '" ++ expected ++ "', found '" ++ found ++ "'"
  | .invalidFormat format refusal =>
    "Invalid format '" ++ format ++ "': " ++ refusal.message
  | .alreadyInitialized => "Buffers are already initialized"
  | .notInitialized transform => "Transform '" ++ transform ++ "' executed before initialize"
  | .invalidBuffer format index flaw =>
    s!"Buffers[{index}] is invalid (" ++ flaw.message ++ "). Format is " ++ format
  | .bufferCountMismatch expected found =>
    s!"Buffer count mismatch: {expected} expected, {found} found"
  | .unknownTransform name => "Unknown transform: " ++ name
  | .unknownParameter transform parameter =>
    "Unknown parameter '" ++ parameter ++ "' of transform '" ++ transform ++ "'"
  | .invalidParameter transform parameter value problem =>
    "Invalid value '" ++ value ++ "' of parameter '" ++ parameter ++ "' of transform '" ++
      transform ++ "': " ++ problem.message
  | .unknownStage number => s!"Unknown stage: {number}"
  | .duplicateFeature name => "Duplicate feature: " ++ name
  | .allocationExhausted required limit =>
    s!"Allocation exhausted: layout needs {required} bytes, limit is {limit}"
  | .invalidLayout strategy =>
    "Placement strategy '" ++ strategy ++ "' produced an invalid buffer layout"
  | .malformedTree problem => "Malformed lifetime tree: " ++ problem.message
  | .unknownNode index => s!"Unknown tree node: {index}"
  | .invalidConfig problem => "Invalid config: " ++ problem.message
  | .io => "IO error"
  | .fault transform cause => "Fault in transform '" ++ transform ++ "': " ++ cause.message

end Timbre
