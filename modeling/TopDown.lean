import TopDown.Grammar.Derivation
import TopDown.Main
import TopDown.Search.Store
import TopDown.Proofs.Checking
import TopDown.Proofs.DepthFirst
import TopDown.Proofs.FirstMap
import TopDown.Proofs.Format
import TopDown.Proofs.Freshness
import TopDown.Proofs.Halting
import TopDown.Proofs.Identity
import TopDown.Proofs.Limits
import TopDown.Proofs.Loader
import TopDown.Proofs.NumberedNormalization
import TopDown.Proofs.Reloading
import TopDown.Proofs.Sharing
import TopDown.Proofs.Splitting
import TopDown.Proofs.WordList
