import Multitape.Files.Store
import Multitape.Main
import Multitape.Proofs.Bound
import Multitape.Proofs.Builder
import Multitape.Proofs.Catalog.Equality
import Multitape.Proofs.Catalog.Palindrome
import Multitape.Proofs.Catalog.Transducers
import Multitape.Proofs.Description.Faults
import Multitape.Proofs.Description.Idle
import Multitape.Proofs.Description.InRange
import Multitape.Proofs.Description.Order
import Multitape.Proofs.Description.Parsed
import Multitape.Proofs.Description.RoundTrip
import Multitape.Proofs.Edits
import Multitape.Proofs.Extent
import Multitape.Proofs.Forecast
import Multitape.Proofs.Modes
import Multitape.Proofs.Observed
import Multitape.Proofs.Offsets
import Multitape.Proofs.OnePass
import Multitape.Proofs.Padding
import Multitape.Proofs.Row
import Multitape.Proofs.SingleTape.Agreement
import Multitape.Proofs.SingleTape.Graph
import Multitape.Proofs.SingleTape.InRange
import Multitape.Proofs.SingleTape.Inputs
import Multitape.Proofs.SingleTape.Insertion
import Multitape.Proofs.SingleTape.Layouts
import Multitape.Proofs.SingleTape.Worklist
import Multitape.Proofs.SingleTape.Written
import Multitape.Proofs.Spelled.Agreement
import Multitape.Proofs.Splitting
import Multitape.Proofs.Tables
