import Csf.CacheSim.Reference
import Csf.CacheSim.WriteBack
import Csf.CacheSim.Inclusion
import Csf.CacheSim.Cycles
import Csf.CacheSim.Clocks
import Csf.CacheSim.Invariant
import Csf.CacheSim.Independence
import Csf.CacheSim.Fetch
import Csf.CacheSim.Report
import Csf.CacheSim.Locality
import Csf.CacheSim.Balance
import Csf.Hexdump.Chunking
import Csf.Hexdump.ReadErrors
import Csf.Hexdump.AsmAgreement
import Csf.Chat.Grammar
import Csf.Chat.Delivery
import Csf.Chat.Replies
import Csf.Chat.Joining
import Csf.Chat.Quiescence
import Csf.Chat.MessageQueue
import Csf.Chat.SenderLoop
import Csf.Chat.Screen
import Csf.Chat.ReceiverLoop
import Csf.Uint256.Sub
import Csf.Uint256.Mul
import Csf.Uint256.Bounds
import Csf.Parsort.Failures
import Csf.Parsort.Recursion
import Csf.Parsort.Merge
import Csf.Parsort.Checker
import Csf.Parsort.Processes
import Csf.Uint256.Laws
import Csf.Chat.Accepting
