import Timbre.Pipeline.Basic

/-! # Feature extractors

An extractor computes declared features from batches of 16-bit signals. It is described by the
sampling rate, the length and the number of the signals, and by one chain of links for each feature;
chains that start alike share their stages.
-/
namespace Timbre

namespace Extractor

structure Plan where
  samplingRate : Nat := 16000
  /-- The samples of each signal; it has to be given. -/
  bufferSize : Nat := 0
  buffersCount : Nat := 1
  features : List (String × List Link) := []
  config : Config := {}
  registry : Registry := .builtin

end Extractor

structure Extractor where
  source : Format (.array .int16)
  pipeline : Pipeline

namespace Extractor

namespace Plan

def missing? (p : Plan) : Option ConfigProblem :=
  if p.bufferSize = 0 then some .noSize
  else if p.buffersCount = 0 then some .noBuffers
  else if p.features.isEmpty then some .noFeatures
  else none

/-- Declares features one after the other, up to the first that is refused. -/
def declare (b : Builder) : List (String × List Link) → Outcome Builder Unit
  | [] => ⟨b, .ok (), []⟩
  | f :: fs =>
    let o := b.addFeature f.1 f.2
    match o.answer with
    | .error e => ⟨o.state, .error e, o.warnings⟩
    | .ok _ =>
      let rest := declare o.state fs
      ⟨rest.state, rest.answer, o.warnings ++ rest.warnings⟩

def source (p : Plan) : Except Error (Format (.array .int16)) :=
  Format.withRate ⟨p.bufferSize, none⟩ p.samplingRate

/-- Builds the extractor; `available` and `write` are as for a pipeline. -/
def build (p : Plan) (available : Nat) (write : (path text : String) → Except Error Unit) :
    Outcome Unit Extractor :=
  match p.missing? with
  | some problem => ⟨(), .error (.invalidConfig problem), []⟩
  | none =>
    match p.source with
    | .error e => ⟨(), .error e, []⟩
    | .ok source =>
      let o := declare
        { registry := p.registry, source := ⟨_, source⟩, sourceCount := p.buffersCount } p.features
      match o.answer with
      | .error e => ⟨(), .error e, o.warnings⟩
      | .ok () =>
        ⟨(), (o.state.build p.config available write).map (⟨source, ·⟩), o.warnings⟩

end Plan

def extract (x : Extractor) (signals : Array (Array Int16)) : Outcome Unit Features :=
  let buffers : AnyBuffers := ⟨_, .ofElements x.source signals⟩
  match x.source.validate buffers with
  | .error e => ⟨(), .error e, []⟩
  | .ok () => x.pipeline.run buffers

def samplingRate (x : Extractor) : Nat := (x.source.rate.map (·.hz)).getD 0

def debugText (x : Extractor) : String :=
  Text.showRecord "FeatureExtractor"
    [("source", Text.quote x.source.describe), ("pipeline", x.pipeline.debugText)]

end Extractor

end Timbre
