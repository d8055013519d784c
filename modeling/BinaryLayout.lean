import BinaryLayout.Bits.Buffer
import BinaryLayout.Bits.Window
import BinaryLayout.Bits.ZigZag
import BinaryLayout.Document.Stream
import BinaryLayout.Proofs.BitFields
import BinaryLayout.Proofs.Buffers
import BinaryLayout.Proofs.CheckedReading
import BinaryLayout.Proofs.Collisions
import BinaryLayout.Proofs.ConstantPools
import BinaryLayout.Proofs.Conversions
import BinaryLayout.Proofs.Divisions
import BinaryLayout.Proofs.FaultySinks
import BinaryLayout.Proofs.Foldings
import BinaryLayout.Proofs.Insertions
import BinaryLayout.Proofs.Joins
import BinaryLayout.Proofs.Layouts
import BinaryLayout.Proofs.Magnitudes
import BinaryLayout.Proofs.NamedRows
import BinaryLayout.Proofs.NarrowReaders
import BinaryLayout.Proofs.Positions
import BinaryLayout.Proofs.Refusals
import BinaryLayout.Proofs.Trails
import BinaryLayout.Proofs.VisitOrder
import BinaryLayout.Table.Header
import BinaryLayout.Ty.Catalog
import BinaryLayout.Word.Fields
