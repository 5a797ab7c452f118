import TestScript.Main
import TestScript.Proofs.Command.Checking
import TestScript.Proofs.Command.Concord
import TestScript.Proofs.Document.Construction
import TestScript.Proofs.Document.Loading
import TestScript.Proofs.Grammar.Diagnosis
import TestScript.Proofs.Grammar.Execution
import TestScript.Proofs.Grammar.Printing
import TestScript.Proofs.Layout.Faults
import TestScript.Proofs.Layout.Inline
import TestScript.Proofs.Likeness.Blobs
import TestScript.Proofs.Likeness.Positions
import TestScript.Proofs.Tree.Siblings
import TestScript.Proofs.Document.Members
import TestScript.Proofs.Number.Literals
import TestScript.Proofs.Document.Scalars
import TestScript.Proofs.Tree.Spellings
import TestScript.Proofs.Yaml.Places
import TestScript.Proofs.Yaml.Cursors
import TestScript.Proofs.Yaml.Readers
import TestScript.Proofs.Yaml.Marks
import TestScript.Proofs.Yaml.Scanning
import TestScript.Proofs.Yaml.Telling
import TestScript.Proofs.Document.Standing
import TestScript.Proofs.Text.Places
import TestScript.Proofs.Text.Alignment
import TestScript.Proofs.Text.Excerpts
import TestScript.Proofs.Yaml.FirstLines
