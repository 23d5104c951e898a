import Pointwise.Promotion.Record
import Pointwise.Registry.Basic
import Pointwise.Named
import Pointwise.Proofs.Registry.History
import Pointwise.Proofs.Kernel.Refusal
import Pointwise.Proofs.Kernel.Trace
import Pointwise.Proofs.Kernel.Builtin
import Pointwise.Proofs.Kernel.Path
import Pointwise.Proofs.Kernel.Effect
import Pointwise.Proofs.Binary.Magnitude
import Pointwise.Proofs.Binary.Number
import Pointwise.Proofs.Element.Parts
import Pointwise.Proofs.Element.Order
import Pointwise.Proofs.Kernel.Answer
import Pointwise.Proofs.Kernel.Order
import Pointwise.Proofs.Element.Division
import Pointwise.Proofs.Kernel.Division
import Pointwise.Proofs.Registry.Release
import Pointwise.Proofs.Element.Arithmetic
import Pointwise.Proofs.Kernel.Arithmetic
import Pointwise.Proofs.Binary.Values
import Pointwise.Proofs.Element.Values
import Pointwise.Proofs.Promotion.Smallest
import Pointwise.Proofs.Kernel.Table
import Pointwise.Proofs.Registry.Builtin
import Pointwise.Proofs.Registry.Lookup
import Pointwise.Proofs.Kernel.InPlace
import Pointwise.Proofs.Kernel.QuotientRemainder
import Pointwise.Proofs.Element.Commutative
import Pointwise.Proofs.Promotion.Symmetric
import Pointwise.Proofs.Registry.Symmetric
import Pointwise.Proofs.Binary.Rounding
import Pointwise.Proofs.Complex.Division
import Pointwise.Proofs.Binary.Quanta
import Pointwise.Proofs.Binary.Limit
import Pointwise.Proofs.Binary.Nearest
import Pointwise.Proofs.Binary.Remainder
import Pointwise.Proofs.Binary.Snap
import Pointwise.Proofs.Binary.Quotient
import Pointwise.Proofs.Complex.Infinite
import Pointwise.Proofs.Binary.Correct
import Pointwise.Proofs.Binary.Whole
import Pointwise.Proofs.Kernel.Rounding
import Pointwise.Proofs.Complex.Real
import Pointwise.Proofs.Element.Rounded
import Pointwise.Proofs.Binary.Truncation
import Pointwise.Proofs.Element.Truncated
import Pointwise.Proofs.Registry.Log
import Pointwise.Proofs.Document
import Pointwise.Proofs.Promotion.Record
import Pointwise.Proofs.Signature
import Pointwise.Proofs.Integer.Checked
import Pointwise.Proofs.Promotion.Casts
import Pointwise.Proofs.Element.Access
