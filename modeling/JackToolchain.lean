import JackToolchain.Files.Tree
import JackToolchain.Main
import JackToolchain.Proofs.Annotation
import JackToolchain.Proofs.Assembly.AddressWords
import JackToolchain.Proofs.Assembly.Printing
import JackToolchain.Proofs.Building
import JackToolchain.Proofs.Formatting
import JackToolchain.Proofs.Jack.Accesses
import JackToolchain.Proofs.Jack.Completion
import JackToolchain.Proofs.Jack.Depth
import JackToolchain.Proofs.Jack.Exactness
import JackToolchain.Proofs.Jack.Height
import JackToolchain.Proofs.Jack.Numbering
import JackToolchain.Proofs.Jack.Rejection
import JackToolchain.Proofs.Jack.Rereading
import JackToolchain.Proofs.LabelLines
import JackToolchain.Proofs.Literals
import JackToolchain.Proofs.Machine.Halting
import JackToolchain.Proofs.Positions
import JackToolchain.Proofs.PrivateCells
import JackToolchain.Proofs.Project.Reading
import JackToolchain.Proofs.Routes
import JackToolchain.Proofs.Statics
import JackToolchain.Proofs.Vm.Comparison
import JackToolchain.Proofs.Vm.Refusal
import JackToolchain.Proofs.Vm.RoundTrip
import JackToolchain.Proofs.Vm.Translation
