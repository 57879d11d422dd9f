import TreeBorrows.Checker.Event
import TreeBorrows.Proofs.RunMap.Alignment
import TreeBorrows.Proofs.Checker.Absorbed
import TreeBorrows.Proofs.Checker.ActiveChain
import TreeBorrows.Proofs.Checker.Guarantee
import TreeBorrows.Proofs.Checker.Atomicity
import TreeBorrows.Proofs.Checker.Bytewise
import TreeBorrows.Proofs.Checker.Protectors
import TreeBorrows.Proofs.Checker.Skipping
import TreeBorrows.RunMap.Lemmas
import TreeBorrows.Settings.Document
import TreeBorrows.Proofs.Tree.FirstConflict
import TreeBorrows.Proofs.Tree.Merging
import TreeBorrows.Proofs.Checker.Merging
import TreeBorrows.Proofs.Checker.Loss
import TreeBorrows.Proofs.Checker.Scopes
import TreeBorrows.Proofs.Checker.Commuting
import TreeBorrows.Proofs.Checker.Faultless
import TreeBorrows.Proofs.Tree.History
import TreeBorrows.Proofs.Checker.Isolation
import TreeBorrows.Proofs.Checker.Owner
import TreeBorrows.Proofs.Checker.Classification
import TreeBorrows.Proofs.Checker.Freeing
import TreeBorrows.Proofs.Checker.Reports
import TreeBorrows.Proofs.Checker.TwoPhase
import TreeBorrows.Proofs.Tree.Reborrow
import TreeBorrows.Proofs.Checker.Repetition
import TreeBorrows.Proofs.Checker.FreshTag
import TreeBorrows.Proofs.RunMap.TotalMap
import TreeBorrows.Proofs.RunMap.NormalForm
import TreeBorrows.Proofs.Tree.Traversal
import TreeBorrows.Proofs.Checker.TransitionLog
import TreeBorrows.Proofs.KeyedSlots
import TreeBorrows.Proofs.Settings.Environment
import TreeBorrows.Proofs.Tree.Passes
import TreeBorrows.Proofs.Tree.Tightness
