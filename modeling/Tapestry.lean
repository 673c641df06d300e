import Tapestry.Main
import Tapestry.Proofs.TapeRefinement
import Tapestry.Proofs.RegisterFreshness
import Tapestry.Proofs.AddressHelpers
import Tapestry.Proofs.CachedBuilds
import Tapestry.Proofs.CacheLedger
import Tapestry.Proofs.SourceAppending
import Tapestry.Proofs.CompilerReuse
import Tapestry.Proofs.CallReferences
import Tapestry.Proofs.BracketMatching
import Tapestry.Proofs.SavedImages
import Tapestry.Proofs.NormalPrograms
import Tapestry.Proofs.LeftScopes
import Tapestry.Proofs.InputEnds
import Tapestry.Proofs.MarkerRewriting
import Tapestry.Proofs.CursorWords
import Tapestry.Proofs.DirectiveLines
import Tapestry.Proofs.Completions
import Tapestry.Proofs.CallableTemplates
