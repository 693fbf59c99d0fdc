import Handheld.Main
import Handheld.Engine.Script
import Handheld.Proofs.Simulation
import Handheld.Proofs.Safety
import Handheld.Proofs.Budget
import Handheld.Proofs.CartText
import Handheld.Proofs.Capacity
import Handheld.Proofs.ConsoleRoom
import Handheld.Proofs.NestedCall
import Handheld.Proofs.Pieces
import Handheld.Proofs.SavedCart
import Handheld.Proofs.EntryPoint
import Handheld.Proofs.Immediate
import Handheld.Proofs.Truncation
import Handheld.Proofs.Delivery
import Handheld.Proofs.Redefinition
import Handheld.Proofs.Diagnosis
import Handheld.Proofs.Counting
import Handheld.Proofs.Quotation
import Handheld.Proofs.SpriteText
import Handheld.Proofs.Numerals
import Handheld.Proofs.BareReturn
import Handheld.Proofs.SoundText
import Handheld.Proofs.Scanning
import Handheld.Proofs.Regions
import Handheld.Proofs.ByteViews
import Handheld.Proofs.SpriteGrid
import Handheld.Proofs.NameLookup
