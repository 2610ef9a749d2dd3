import GraphQLSyntax.Diagnostic
import GraphQLSyntax.Proofs.Document.Canonical
import GraphQLSyntax.Proofs.Document.Depth
import GraphQLSyntax.Proofs.Document.Determined
import GraphQLSyntax.Proofs.Document.Dump
import GraphQLSyntax.Proofs.Document.Lines
import GraphQLSyntax.Proofs.Document.Minimal
import GraphQLSyntax.Proofs.Document.Places
import GraphQLSyntax.Proofs.Document.Scans
import GraphQLSyntax.Proofs.Token.Calls
import GraphQLSyntax.Proofs.Token.LinePlaces
import GraphQLSyntax.Proofs.Token.Strings
import GraphQLSyntax.Proofs.Value.Modes
import GraphQLSyntax.Proofs.Token.NumberPattern
import GraphQLSyntax.Proofs.Text.Dedent
import GraphQLSyntax.Proofs.Token.BlockStrings
import GraphQLSyntax.Proofs.Token.Floats
import GraphQLSyntax.Proofs.Token.Numbers
