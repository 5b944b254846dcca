import YulPlus.Main
import YulPlus.Proofs.Artifact.Synthesis
import YulPlus.Proofs.Build.Checked
import YulPlus.Proofs.Build.Once
import YulPlus.Proofs.Build.Refused
import YulPlus.Proofs.Compiler.Answer
import YulPlus.Proofs.Compiler.Wire
import YulPlus.Proofs.Lowering.Isolation
import YulPlus.Proofs.Lowering.Layouts
import YulPlus.Proofs.Lowering.Listed
import YulPlus.Proofs.Lowering.Located
import YulPlus.Proofs.Lowering.Partners
import YulPlus.Proofs.Lowering.Plain
import YulPlus.Proofs.Project.DefaultText
import YulPlus.Proofs.Project.Initialized
import YulPlus.Proofs.Signature.Canonical
import YulPlus.Proofs.Signature.Refused
import YulPlus.Proofs.Source.Joined
import YulPlus.Proofs.Source.Layout
