import LambdaPi.Session.Run
import LambdaPi.Proofs.BoundMetas
import LambdaPi.Proofs.CachedTrees
import LambdaPi.Proofs.CircularProofs
import LambdaPi.Proofs.ConversionSymmetric
import LambdaPi.Proofs.CosmeticNames
import LambdaPi.Proofs.FailedInstructions
import LambdaPi.Proofs.FirstMatch
import LambdaPi.Proofs.Fixpoints
import LambdaPi.Proofs.FreshSymbols
import LambdaPi.Proofs.InferCheck
import LambdaPi.Proofs.LazyConversion
import LambdaPi.Proofs.LoadingStack
import LambdaPi.Proofs.LoadingTerminates
import LambdaPi.Proofs.MatchingInRange
import LambdaPi.Proofs.Namespaces
import LambdaPi.Proofs.Obligations
import LambdaPi.Proofs.Renaming.Evaluation
import LambdaPi.Proofs.Scoping
import LambdaPi.Proofs.SubstitutionLaws
import LambdaPi.Proofs.TypingSound
import LambdaPi.Proofs.Weakening
import LambdaPi.Proofs.WellFormedPatterns
import LambdaPi.Proofs.ExactSubstitution
import LambdaPi.Proofs.BindingInverse
import LambdaPi.Proofs.NumberedPatterns
import LambdaPi.Proofs.NumberedSearch
import LambdaPi.Proofs.StructuralEquality
import LambdaPi.Proofs.PatternArguments
import LambdaPi.Proofs.Parameters
