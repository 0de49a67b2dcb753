import HornMachine.Proofs.SharedGoals
import HornMachine.Main
import HornMachine.Proofs.IndexIndependence
import HornMachine.Proofs.CodeTrees
import HornMachine.Proofs.Reference
import HornMachine.Proofs.Unifiers
import HornMachine.Proofs.MostGeneral
import HornMachine.Proofs.SameTrees
import HornMachine.Proofs.BindingLog
import HornMachine.Term.Quoted
import HornMachine.Proofs.Soundness
import HornMachine.Proofs.KeyTrees
import HornMachine.Proofs.Completeness
import HornMachine.Proofs.PristineCopies
import HornMachine.Proofs.Resuming
import HornMachine.Proofs.ClauseOrder
import HornMachine.Proofs.Renumbering
import HornMachine.Proofs.StoredSentences
import HornMachine.Proofs.WrittenSentences
import HornMachine.Proofs.KeySafety
import HornMachine.Proofs.HeadCopies
import HornMachine.Proofs.VariableRings
import HornMachine.Proofs.ChainEnds
import HornMachine.Proofs.Diagnostics
import HornMachine.Proofs.ListExpansion
import HornMachine.Proofs.ListHygiene
import HornMachine.Proofs.NumberCells
import HornMachine.Proofs.SymmetricUnification
import HornMachine.Proofs.LayoutInvariant
import HornMachine.Proofs.MemoizedKeys
import HornMachine.Proofs.TermText
import HornMachine.Proofs.PrintedTerms
import HornMachine.Proofs.ReaderProgress
import HornMachine.Proofs.TemplateMoves
