import Fluxion.Main
import Fluxion.Proofs.ReductionOverflow
import Fluxion.Proofs.ReductionSound
import Fluxion.Proofs.NormalForm
import Fluxion.Proofs.UniformDerivative
import Fluxion.Proofs.TotalDerivative
import Fluxion.Proofs.RealFunction
import Fluxion.Proofs.RealDerivative
import Fluxion.Proofs.Subtraction
import Fluxion.Proofs.LineBlanks
import Fluxion.Proofs.DerivativeParts
import Fluxion.Proofs.PartByPart
import Fluxion.Proofs.Tiling
import Fluxion.Proofs.Parentheses
import Fluxion.Proofs.Respacing
import Fluxion.Proofs.SurveyReport
import Fluxion.Proofs.FaultPlaces
import Fluxion.Proofs.DerivativeSize
import Fluxion.Proofs.ReductionShape
import Fluxion.Proofs.ConstantDerivative
import Fluxion.Proofs.OperatorExchange
import Fluxion.Proofs.ReaderStacks
import Fluxion.Proofs.VisitOrder
