import Predictive.Calculator
import Predictive.Calculator.Meaning
import Predictive.Grammar.Basic
import Predictive.Grammar.Derivation
import Predictive.Grammar.Error
import Predictive.Grammar.First
import Predictive.Grammar.Follow
import Predictive.Grammar.Lowering
import Predictive.Grammar.Plain
import Predictive.Grammar.Rule
import Predictive.Grammar.RuleLanguage
import Predictive.Grammar.Symbol
import Predictive.Lexical.CharSet
import Predictive.Lexical.Dfa
import Predictive.Lexical.Fragment
import Predictive.Lexical.Language
import Predictive.Lexical.Lexer
import Predictive.Lexical.MaximalMunch
import Predictive.Lexical.Nfa
import Predictive.Lexical.Path
import Predictive.Lexical.Pattern
import Predictive.Lexical.Scalar
import Predictive.Lexical.Subset
import Predictive.Lexical.Token
import Predictive.OrderedSet
import Predictive.Parsing.Derivation
import Predictive.Parsing.Error
import Predictive.Parsing.Machine
import Predictive.Parsing.Table
import Predictive.Parsing.Tree
import Predictive.Pipeline
import Predictive.Proofs.Calculator.Evaluation
import Predictive.Proofs.Calculator.Level
import Predictive.Proofs.Calculator.Spelling
import Predictive.Proofs.Grammar.Admission
import Predictive.Proofs.Grammar.First
import Predictive.Proofs.Grammar.Fixpoint
import Predictive.Proofs.Grammar.Follow
import Predictive.Proofs.Grammar.Growth
import Predictive.Proofs.Grammar.Language
import Predictive.Proofs.Grammar.Numbering
import Predictive.Proofs.Grammar.Realization
import Predictive.Proofs.Grammar.RuleBody
import Predictive.Proofs.Grammar.RuleOrder
import Predictive.Proofs.Grammar.RuleText
import Predictive.Proofs.Grammar.SententialForm
import Predictive.Proofs.Lexical.Acceptance
import Predictive.Proofs.Lexical.Alphabet
import Predictive.Proofs.Lexical.CanonicalForm
import Predictive.Proofs.Lexical.CharSet
import Predictive.Proofs.Lexical.Closure
import Predictive.Proofs.Lexical.Confinement
import Predictive.Proofs.Lexical.Construction
import Predictive.Proofs.Lexical.Coverage
import Predictive.Proofs.Lexical.Discovery
import Predictive.Proofs.Lexical.Encoding
import Predictive.Proofs.Lexical.EpsilonClosure
import Predictive.Proofs.Lexical.Exhaustion
import Predictive.Proofs.Lexical.Isolation
import Predictive.Proofs.Lexical.Lookup
import Predictive.Proofs.Lexical.MaximalMunch
import Predictive.Proofs.Lexical.Reachability
import Predictive.Proofs.Lexical.Recognition
import Predictive.Proofs.Lexical.Subset
import Predictive.Proofs.Lexical.Transitions
import Predictive.Proofs.Parsing.Conflict
import Predictive.Proofs.Parsing.ConflictKind
import Predictive.Proofs.Parsing.Correctness
import Predictive.Proofs.Parsing.Expectation
import Predictive.Proofs.Parsing.Failure
import Predictive.Proofs.Parsing.Location
import Predictive.Proofs.Parsing.Prediction
import Predictive.Proofs.Parsing.RuleOrder
import Predictive.Proofs.Parsing.Run
import Predictive.Proofs.Parsing.Sentence
import Predictive.Proofs.Parsing.Stack
import Predictive.Proofs.Parsing.Termination
import Predictive.Session
import Predictive.Storage.Automaton
import Predictive.Storage.Parse
import Predictive.Storage.Value
import Predictive.Text.Boundaries
import Predictive.Text.Encoding
import Predictive.Text.Escape
import Predictive.Text.GraphemeExtend
import Predictive.Text.Position
import Predictive.Text.Printable
import Predictive.Text.Span
