import JsonAxes.Main
import JsonAxes.Proofs.Path.Display
import JsonAxes.Proofs.Query.Parents
import JsonAxes.Proofs.Query.Unsupported
import JsonAxes.Proofs.Standard.Denotation
import JsonAxes.Proofs.Value.Comments
import JsonAxes.Proofs.Cli.Files
import JsonAxes.Proofs.Cli.Modes
import JsonAxes.Proofs.Value.Spacing
import JsonAxes.Proofs.Value.Lines
import JsonAxes.Proofs.Encoding.Fault
import JsonAxes.Proofs.Value.Quoting
import JsonAxes.Proofs.Value.Depth
import JsonAxes.Proofs.Descent.Parser
import JsonAxes.Proofs.Query.Ordered
import JsonAxes.Proofs.Query.Cost
import JsonAxes.Proofs.Query.Lookup
import JsonAxes.Proofs.Path.Numbering
import JsonAxes.Proofs.Text.Nearest
import JsonAxes.Proofs.Query.Routes
import JsonAxes.Proofs.Path.Blame
import JsonAxes.Proofs.Query.Answers
