import Liquet.Text.Hex
import Liquet.Json.Value
import Liquet.Json.Reader
import Liquet.Json.Content
import Liquet.Json.RoundTrip
import Liquet.Json.Fuel
import Liquet.Json.Derive
import Liquet.Json.Extends
import Liquet.Json.Controls
import Liquet.Json.Grammar
import Liquet.Json.Soundness
import Liquet.Json.Presents
import Liquet.Json.Decimal
import Liquet.Seam
import Liquet.Decide
import Liquet.Checks
import Liquet.PolicyOrder
import Liquet.Library.Result
import Liquet.Library.Canonical
import Liquet.Library.ContentAddressed
import Liquet.Library.Files
import Liquet.Library.SharedFiles
import Liquet.Crypto.Primitives
import Liquet.Crypto.Sha256
import Liquet.Crypto.Reference
import Liquet.Attest
import Liquet.SignerPin
import Liquet.Presentation
import Liquet.SeamJson
import Liquet.Adapters.Producers
import Liquet.Adapters.Custos
import Liquet.Adapters.Probatio
import Liquet.Adapters.XvmCustos
import Liquet.Erc8004.Response
import Liquet.Erc8004.RelyingParty
import Liquet.Erc8004.Truncation
import Liquet.Erc8004.Store
import Liquet.Erc8004.FileStore
import Liquet.Erc8004.StoreRefinement
import Liquet.Erc8004.Validator
import Liquet.Erc8004.FailedPut
import Liquet.Erc8004.Runs
import Liquet.Erc8004.StoreRuns
import Liquet.Erc8004.FaultyRuns
import Liquet.Erc8004.UntrustedStore
import Liquet.Erc8004.Presentation
import Liquet.Erc8004.LiquetValidator
import Liquet.Erc8004.RequestDocuments
import Liquet.Erc8004.EarnedPass
import Liquet.Erc8004.Grounding
import Liquet.Erc8004.Unresolvable
import Liquet.Erc8004.Audit
import Liquet.Bin.Slice
import Liquet.Bin.XvmDemo
import Liquet.Erc8004.ConcurrentPuts
