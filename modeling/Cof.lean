import Cof.CType.Arena
import Cof.Instr.Listing
import Cof.Main
import Cof.Proofs.Accepted
import Cof.Proofs.Attached
import Cof.Proofs.Combinations
import Cof.Proofs.Consumed
import Cof.Proofs.Counters
import Cof.Proofs.Definite
import Cof.Proofs.EventCode
import Cof.Proofs.Handles
import Cof.Proofs.Indexing
import Cof.Proofs.Lifetimes
import Cof.Proofs.Literals
import Cof.Proofs.ModuleLinkage
import Cof.Proofs.Objects
import Cof.Proofs.Positions
import Cof.Proofs.Qualified
import Cof.Proofs.Renamed
import Cof.Proofs.Reread
import Cof.Proofs.Respaced
import Cof.Proofs.Spelled
import Cof.Proofs.Statements
import Cof.Proofs.Strings
import Cof.Proofs.SymbolTable
import Cof.Proofs.TruthLabels
