import LambdaCalculus.Church.Request
import LambdaCalculus.Main
import LambdaCalculus.Proofs.Church.Expressions
import LambdaCalculus.Proofs.Church.Conversion
import LambdaCalculus.Proofs.Church.Selection
import LambdaCalculus.Proofs.Nameless.Enclosing
import LambdaCalculus.Proofs.Parser.Reading
import LambdaCalculus.Proofs.Reduction.Contraction
import LambdaCalculus.Proofs.Reduction.HeadNormalization
import LambdaCalculus.Reduction.Nesting
import LambdaCalculus.Session.Order
import LambdaCalculus.Term.Request
import LambdaCalculus.Proofs.Reduction.Limit
import LambdaCalculus.Proofs.Parser.Names
import LambdaCalculus.Proofs.Reduction.Names
import LambdaCalculus.Proofs.Term.Layout
import LambdaCalculus.Proofs.CommandLine.Items
import LambdaCalculus.Proofs.CommandLine.Run
import LambdaCalculus.Proofs.Nameless.Laws
import LambdaCalculus.Proofs.Parser.Prefixes
import LambdaCalculus.Proofs.Church.Decoding
import LambdaCalculus.Proofs.Name.Variant
import LambdaCalculus.Proofs.Session.Answers
import LambdaCalculus.Proofs.Reduction.Moments
import LambdaCalculus.Proofs.Name.Least
import LambdaCalculus.Proofs.Report.Diagnosis
import LambdaCalculus.Proofs.Parser.Faults
import LambdaCalculus.Proofs.Session.History
import LambdaCalculus.Proofs.Session.LiveLines
import LambdaCalculus.Proofs.CommandLine.Listing
import LambdaCalculus.Proofs.Parser.Slices
import LambdaCalculus.Proofs.Term.OneLine
import LambdaCalculus.Proofs.CommandLine.Decoration
import LambdaCalculus.Proofs.Name.Splitting
import LambdaCalculus.Proofs.Name.Search
import LambdaCalculus.Proofs.Term.Recursion
