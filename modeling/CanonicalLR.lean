import CanonicalLR.Parser
import CanonicalLR.Proofs.Language.Derivation
import CanonicalLR.Proofs.Language.Tree
import CanonicalLR.Proofs.Grammar.Augmented
import CanonicalLR.Proofs.Grammar.Built
import CanonicalLR.Proofs.NormalForm.Language
import CanonicalLR.Proofs.NormalForm.Fixpoint
import CanonicalLR.Proofs.NormalForm.Detours
import CanonicalLR.Proofs.Analysis.Agreement
import CanonicalLR.Proofs.Analysis.Firsts
import CanonicalLR.Proofs.Analysis.Moments
import CanonicalLR.Proofs.Analysis.Parents
import CanonicalLR.Proofs.Automaton.Closure
import CanonicalLR.Proofs.Automaton.States
import CanonicalLR.Proofs.Parse.Answers
import CanonicalLR.Proofs.Parse.Completeness
import CanonicalLR.Proofs.Parse.Runs
import CanonicalLR.Proofs.Parse.Faults
import CanonicalLR.Proofs.Parse.Spelling
import CanonicalLR.Proofs.Automaton.Collection
import CanonicalLR.Proofs.Automaton.Continuations
import CanonicalLR.Proofs.Table.Service
import CanonicalLR.Proofs.Table.Conflicts
import CanonicalLR.Proofs.Parse.Rejections
import CanonicalLR.Proofs.Table.Expectations
import CanonicalLR.Proofs.Parse.Prefixes
import CanonicalLR.Proofs.Parse.Accounts
import CanonicalLR.Proofs.Parse.Lockstep
import CanonicalLR.Proofs.Store.Descent
import CanonicalLR.Proofs.Store.Drafts
import CanonicalLR.Proofs.Table.Descriptions
import CanonicalLR.Proofs.Table.Contenders
import CanonicalLR.Proofs.Table.Endlessness
import CanonicalLR.Proofs.Grammar.Findings
import CanonicalLR.Proofs.Automaton.Processing
import CanonicalLR.Proofs.Automaton.Interning
import CanonicalLR.Proofs.NormalForm.Shortening
import CanonicalLR.Proofs.Queue.Marks
import CanonicalLR.Proofs.Parse.Traversal
