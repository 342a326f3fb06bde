import WordExpr.Main
import WordExpr.Eval.Recursive
import WordExpr.Tree
import WordExpr.Proofs.Slice
import WordExpr.Proofs.Expression
import WordExpr.Proofs.PlainRecursion
import WordExpr.Proofs.RangeTree
import WordExpr.Proofs.TreeRun
import WordExpr.Proofs.Matching
import WordExpr.Proofs.Lexable
import WordExpr.Proofs.Spacing
import WordExpr.Proofs.LongestMatch
import WordExpr.Proofs.FirstDefect
import WordExpr.Proofs.Trimming
import WordExpr.Proofs.Literals
import WordExpr.Proofs.Meaning
import WordExpr.Proofs.Grammar
import WordExpr.Proofs.Scanning
import WordExpr.Proofs.Climbing
import WordExpr.Proofs.PlainValue
import WordExpr.Proofs.Agreement
import WordExpr.Proofs.Safety
import WordExpr.Proofs.Defects
import WordExpr.Proofs.Regrouping
import WordExpr.Proofs.Extension
import WordExpr.Proofs.Drafting
import WordExpr.Proofs.Rejection
import WordExpr.Proofs.CaseLines
import WordExpr.Proofs.Verdicts
import WordExpr.Proofs.Checking
import WordExpr.Proofs.Passing
import WordExpr.Proofs.Arithmetic
import WordExpr.Proofs.Printing
import WordExpr.Proofs.Ranking
import WordExpr.Proofs.Trace
import WordExpr.Proofs.Replacement
import WordExpr.Proofs.Folding
import WordExpr.Proofs.Limits
import WordExpr.Proofs.Lookups
import WordExpr.Proofs.Narrowing
import WordExpr.Proofs.Registers
import WordExpr.Proofs.Assigned
import WordExpr.Proofs.Reports
import WordExpr.Proofs.Termination
import WordExpr.Proofs.Nesting
import WordExpr.Proofs.Residues
import WordExpr.Proofs.Lengths
import WordExpr.Proofs.NumeralSyntax
import WordExpr.Proofs.AssignmentSyntax
import WordExpr.Proofs.Restoring
import WordExpr.Proofs.Brackets
import WordExpr.Proofs.MainOperator
