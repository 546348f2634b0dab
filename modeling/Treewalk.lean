import Treewalk.Main
import Treewalk.Tree.Text
import Treewalk.Proofs.OneInterpreter
import Treewalk.Proofs.FaultyFiles
import Treewalk.Proofs.Flows
import Treewalk.Proofs.SuperCalls
import Treewalk.Proofs.Isolation
import Treewalk.Proofs.Accepting
import Treewalk.Proofs.Agreement
import Treewalk.Proofs.Imports
import Treewalk.Proofs.EntryCalls
import Treewalk.Proofs.Restored
import Treewalk.Proofs.Blame
import Treewalk.Proofs.OwnFields
import Treewalk.Proofs.Rejected
import Treewalk.Proofs.Lexemes
import Treewalk.Proofs.Attribution
import Treewalk.Proofs.Compound
import Treewalk.Proofs.Printing
import Treewalk.Proofs.Recovery
import Treewalk.Proofs.Unseen
import Treewalk.Proofs.Initialization
import Treewalk.Proofs.FieldScopes
import Treewalk.Proofs.Inside
import Treewalk.Proofs.Locations
import Treewalk.Proofs.Statics
import Treewalk.Proofs.SpreadRun
