import LeoNet.Lib.Memory
import LeoNet.Lib.Circular
import LeoNet.Lib.Counter
import LeoNet.Lib.Machine
import LeoNet.Lib.BoundedFifo
import LeoNet.Lib.Channel
import LeoNet.Lib.Word
import LeoNet.Lib.Loop
import LeoNet.RingBuffer
import LeoNet.RingBufferFifo
import LeoNet.RingBufferConcurrent
import LeoNet.LockFreeQueue
import LeoNet.LockFreeQueueConcurrent
import LeoNet.UninterruptedCalls
import LeoNet.DofCrypto
import LeoNet.NetMessage
import LeoNet.TcpGameProtocol
import LeoNet.NetSession
import LeoNet.Callbacks
import LeoNet.ReceivePath
import LeoNet.SendPath
import LeoNet.SessionPool
import LeoNet.SessionQueues
import LeoNet.FrameLoop
import LeoNet.BackPressure
import LeoNet.FrameExtent
import LeoNet.RingWindows
import LeoNet.DocumentedFrames
import LeoNet.WriteEvent
import LeoNet.DesTables
import LeoNet.Lib.Bits
import LeoNet.Lib.Feistel
import LeoNet.DesCrypto
import LeoNet.StandardDes
import LeoNet.DesAgreement
import LeoNet.Lib.ShiftRegister
import LeoNet.Lib.BinaryPolynomial
import LeoNet.CrcDivision
import LeoNet.CrcTable
import LeoNet.SequenceDiscipline
import LeoNet.EncodedFrames
import LeoNet.FrameLengths
import LeoNet.DesWidth
import LeoNet.Lib.Transducer
import LeoNet.CbcMode
import LeoNet.Handshake
import LeoNet.Lib.StreamCipher
import LeoNet.XorCipher
import LeoNet.Lib.Regions
import LeoNet.Reservations
import LeoNet.DeclaredSizes
import LeoNet.Lib.FreeList
import LeoNet.SessionOwners
import LeoNet.Lib.EventBase
import LeoNet.Lib.Projection
import LeoNet.NetService
import LeoNet.ServiceInvariant
import LeoNet.ServiceRuns
import LeoNet.ServiceIsolation
import LeoNet.ServiceMessages
import LeoNet.DesKeys
import LeoNet.CbcChanges
import LeoNet.TripleDes
import LeoNet.SmallTables
import LeoNet.ServiceAccounts
import LeoNet.FrameTampering
import LeoNet.Lib.Linearization
import LeoNet.QueueLinearization
import LeoNet.Lib.Lanes
import LeoNet.Lib.SymbolErrors
import LeoNet.TwoErrors
import LeoNet.XorKeys
