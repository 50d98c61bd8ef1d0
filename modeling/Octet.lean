import Octet.CommandLine.Outcome
import Octet.Main
import Octet.Proofs.Assembler.Capacity
import Octet.Proofs.Assembler.Columns
import Octet.Proofs.Assembler.CutEscapes
import Octet.Proofs.Assembler.DataGrammar
import Octet.Proofs.Assembler.ExpansionForms
import Octet.Proofs.Assembler.IncludeDepth
import Octet.Proofs.Assembler.Includes
import Octet.Proofs.Assembler.Labels
import Octet.Proofs.Assembler.Literals
import Octet.Proofs.Assembler.QuotedData
import Octet.Proofs.Assembler.Rearrangement
import Octet.Proofs.Assembler.Relocation
import Octet.Proofs.Assembler.Spelling
import Octet.Proofs.Assembler.TableChanges
import Octet.Proofs.Assembler.TokenReplacement
import Octet.Proofs.Compounds.Arithmetic
import Octet.Proofs.Compounds.Calls
import Octet.Proofs.Compounds.Logic
import Octet.Proofs.Compounds.Moves
import Octet.Proofs.Emulator.Budget
import Octet.Proofs.Emulator.Listing
import Octet.Proofs.Emulator.Recording
import Octet.Proofs.Emulator.Replay
import Octet.Proofs.Emulator.Reports
import Octet.Proofs.Emulator.Stopping
import Octet.Proofs.Machine.AddressSpace
import Octet.Proofs.Machine.PortWatch
