import Timbre.Buffers
import Timbre.Config
import Timbre.Config.Json
import Timbre.Error
import Timbre.Extractor
import Timbre.Fault
import Timbre.Format.Basic
import Timbre.Format.Sample
import Timbre.Fourier.Bin
import Timbre.Fourier.Choice
import Timbre.Fourier.Convolution
import Timbre.Fourier.Factors
import Timbre.Fourier.Generator
import Timbre.Fourier.Plan
import Timbre.Fourier.Root
import Timbre.Fourier.Scheme
import Timbre.Fourier.Transform
import Timbre.Kernel.Autocorrelation
import Timbre.Kernel.Averages
import Timbre.Kernel.Basic
import Timbre.Kernel.Conversion
import Timbre.Kernel.Counting
import Timbre.Kernel.Difference
import Timbre.Kernel.FilterBank
import Timbre.Kernel.Framing
import Timbre.Kernel.Padding
import Timbre.Kernel.Power
import Timbre.Kernel.Spectrum
import Timbre.Kernel.Subbands
import Timbre.Kernel.Tempo
import Timbre.Memory.Dot
import Timbre.Memory.Layout
import Timbre.Memory.Liveness
import Timbre.Memory.Placement
import Timbre.Memory.Tree
import Timbre.Number.Arithmetic
import Timbre.Number.Decimal
import Timbre.Number.Integer
import Timbre.Number.Scalar
import Timbre.Number.Shortest
import Timbre.Number.Single
import Timbre.Parameter
import Timbre.Pipeline.Basic
import Timbre.Pipeline.Builder
import Timbre.Pipeline.Features
import Timbre.Pipeline.Schedule
import Timbre.Proofs.Checking
import Timbre.Proofs.Creation
import Timbre.Proofs.Kernel.Answers
import Timbre.Proofs.Kernel.Batches
import Timbre.Proofs.Kernel.Circular
import Timbre.Proofs.Kernel.Combs
import Timbre.Proofs.Kernel.Depths
import Timbre.Proofs.Kernel.Dyadic
import Timbre.Proofs.Kernel.Energies
import Timbre.Proofs.Kernel.Faultless
import Timbre.Proofs.Kernel.Forgetting
import Timbre.Proofs.Kernel.Grouping
import Timbre.Proofs.Kernel.Guarded
import Timbre.Proofs.Kernel.Inversion
import Timbre.Proofs.Kernel.Lags
import Timbre.Proofs.Kernel.Leftovers
import Timbre.Proofs.Kernel.Library
import Timbre.Proofs.Kernel.Limits
import Timbre.Proofs.Kernel.Maxima
import Timbre.Proofs.Kernel.Overwriting
import Timbre.Proofs.Kernel.Passes
import Timbre.Proofs.Kernel.Plain
import Timbre.Proofs.Kernel.Preparing
import Timbre.Proofs.Kernel.Rates
import Timbre.Proofs.Kernel.Scratch
import Timbre.Proofs.Kernel.Separation
import Timbre.Proofs.Kernel.Setters
import Timbre.Proofs.Kernel.Soundness
import Timbre.Proofs.Kernel.Spectra
import Timbre.Proofs.Kernel.Tempos
import Timbre.Proofs.Kernel.Tiling
import Timbre.Proofs.Kernel.Triangles
import Timbre.Proofs.Kernel.Workers
import Timbre.Proofs.Memory.Alignment
import Timbre.Proofs.Memory.Drawing
import Timbre.Proofs.Memory.Lines
import Timbre.Proofs.Memory.Links
import Timbre.Proofs.Memory.Lowest
import Timbre.Proofs.Memory.Order
import Timbre.Proofs.Memory.Packing
import Timbre.Proofs.Memory.Placing
import Timbre.Proofs.Memory.Proposals
import Timbre.Proofs.Memory.Ranges
import Timbre.Proofs.Memory.Solvable
import Timbre.Proofs.Memory.Solving
import Timbre.Proofs.Memory.Span
import Timbre.Proofs.Memory.Tables
import Timbre.Proofs.Memory.Validity
import Timbre.Proofs.Memory.Words
import Timbre.Proofs.Nesting
import Timbre.Proofs.Number.Digits
import Timbre.Proofs.Number.Exact
import Timbre.Proofs.Number.Values
import Timbre.Proofs.Pipeline.Alignment
import Timbre.Proofs.Pipeline.Assembly
import Timbre.Proofs.Pipeline.BreadthFirst
import Timbre.Proofs.Pipeline.Budget
import Timbre.Proofs.Pipeline.Building
import Timbre.Proofs.Pipeline.Consistency
import Timbre.Proofs.Pipeline.Distribution
import Timbre.Proofs.Pipeline.Failures
import Timbre.Proofs.Pipeline.History
import Timbre.Proofs.Pipeline.Prefixes
import Timbre.Proofs.Pipeline.Release
import Timbre.Proofs.Pipeline.Results
import Timbre.Proofs.Pipeline.Scaling
import Timbre.Proofs.Pipeline.Schedule
import Timbre.Proofs.Pipeline.Sharing
import Timbre.Proofs.Pipeline.Signals
import Timbre.Proofs.Pipeline.Soundness
import Timbre.Proofs.Pipeline.Standalone
import Timbre.Proofs.Pipeline.Wildcard
import Timbre.Proofs.Stage
import Timbre.Proofs.Stage.Accesses
import Timbre.Proofs.Stage.Frames
import Timbre.Proofs.Stage.Overruns
import Timbre.Proofs.Stage.Reuse
import Timbre.Proofs.Stage.Rewiring
import Timbre.Proofs.Stage.Rotation
import Timbre.Proofs.Stage.Staleness
import Timbre.Proofs.Text.Bytes
import Timbre.Proofs.Text.Fields
import Timbre.Proofs.Traversal
import Timbre.Registry
import Timbre.Samples
import Timbre.Scratch
import Timbre.Stage
import Timbre.Text.Blank
import Timbre.Text.Hidden
import Timbre.Text.Json
import Timbre.Text.Quoted
import Timbre.Warning
