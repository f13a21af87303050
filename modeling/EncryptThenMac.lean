import EncryptThenMac.Session.State
import EncryptThenMac.Proofs.Chaining
import EncryptThenMac.Proofs.Padding
import EncryptThenMac.Proofs.KeyInUse
import EncryptThenMac.Proofs.Opening
import EncryptThenMac.Proofs.Canonical
import EncryptThenMac.Proofs.Standard
import EncryptThenMac.Proofs.Tampering
import EncryptThenMac.Proofs.Sealing
import EncryptThenMac.Proofs.Halves
import EncryptThenMac.Proofs.Drawing
import EncryptThenMac.Proofs.LengthField
import EncryptThenMac.Proofs.Observer
import EncryptThenMac.Proofs.Pieces
import EncryptThenMac.Proofs.PaddingFaults
import EncryptThenMac.Proofs.Provenance
import EncryptThenMac.Proofs.Disturbance
import EncryptThenMac.Proofs.VectorReuse
import EncryptThenMac.Proofs.Lengths
import EncryptThenMac.Proofs.OtherVariant
import EncryptThenMac.Proofs.WholeTag
import EncryptThenMac.Proofs.TemplateEntry
import EncryptThenMac.Proofs.TemplateFile
import EncryptThenMac.Proofs.Faultless
import EncryptThenMac.Proofs.WrittenEntry
import EncryptThenMac.Proofs.VariantNames
