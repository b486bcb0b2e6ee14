import DeclLang.Main
import DeclLang.Tree.Node
import DeclLang.Proofs.Grammar.Session
import DeclLang.Proofs.Grammar.Progress
import DeclLang.Proofs.Typing.DefineBeforeUse
import DeclLang.Proofs.Grammar.Spelling
import DeclLang.Proofs.Module.Reading
import DeclLang.Proofs.Grammar.Outcome
import DeclLang.Proofs.Module.Printing
import DeclLang.Proofs.Grammar.Location
import DeclLang.Proofs.Typing.Lifetime
import DeclLang.Proofs.Grammar.Diagnostics
import DeclLang.Proofs.Grammar.Misreading
import DeclLang.Proofs.Module.Stretch
import DeclLang.Proofs.Module.Diagnostics
import DeclLang.Proofs.Module.Location
import DeclLang.Proofs.Module.Cut
import DeclLang.Proofs.Module.Refusal
import DeclLang.Proofs.Grammar.Transaction
import DeclLang.Proofs.Grammar.Ensemble
import DeclLang.Proofs.Grammar.History
import DeclLang.Proofs.Grammar.Translation
import DeclLang.Proofs.Typing.Reordering
import DeclLang.Proofs.Module.Termination
import DeclLang.Proofs.Module.Concatenation
import DeclLang.Proofs.Module.LineEnding
import DeclLang.Proofs.Grammar.Nesting
import DeclLang.Proofs.Grammar.Position
import DeclLang.Proofs.Grammar.Coverage
import DeclLang.Proofs.Grammar.Deconstruction
import DeclLang.Proofs.Grammar.MemberBlock
import DeclLang.Proofs.Grammar.Indentation
import DeclLang.Proofs.Grammar.OpenParenthesis
import DeclLang.Proofs.Grammar.AbandonedType
import DeclLang.Proofs.Grammar.OrderedChoice
import DeclLang.Proofs.Module.NormalForm
import DeclLang.Proofs.Typing.Atomicity
