import FuguexPeripheral.Masks
import FuguexPeripheral.Memo
import FuguexPeripheral.Bypass.Cache
import FuguexPeripheral.Interrupt.Masking
import FuguexPeripheral.Interrupt.Nesting
import FuguexPeripheral.Interrupt.Bracket
import FuguexPeripheral.Bypass.Session
import FuguexPeripheral.Bypass.Targets
import FuguexPeripheral.Bypass.Leftover
import FuguexPeripheral.Bypass.LoopBreaking
import FuguexPeripheral.Backend.Interrupt
import FuguexPeripheral.Backend.ClosedForm
import FuguexPeripheral.SuperH.Service
import FuguexPeripheral.SuperH.Isolation
import FuguexPeripheral.CounterRange
import FuguexPeripheral.V850.Identifiers
import FuguexPeripheral.V850.VirtualCan
import FuguexPeripheral.V850.Transmit
import FuguexPeripheral.V850.FrameData
import FuguexPeripheral.V850.FifoStatus
import FuguexPeripheral.V850.EmptyFifo
import FuguexPeripheral.V850.PhantomMessage
import FuguexPeripheral.Backend.RegisterRead
import FuguexPeripheral.Backend.RegisterWrite
import FuguexPeripheral.Backend.ReadBack
import FuguexPeripheral.Backend.MaskScan
import FuguexPeripheral.Backend.Flags
import FuguexPeripheral.SuperH.Registers
import FuguexPeripheral.SuperH.HalfWords
import FuguexPeripheral.SuperH.Served
import FuguexPeripheral.SuperH.Context
import FuguexPeripheral.C166.Registers
import FuguexPeripheral.C166.Period
import FuguexPeripheral.Bypass.CachedLoad
import FuguexPeripheral.Bypass.CacheKeys
import FuguexPeripheral.Bypass.JointSolutions
import FuguexPeripheral.Bypass.LoadTargets
import FuguexPeripheral.Bypass.Reads
import FuguexPeripheral.Bypass.Frame
import FuguexPeripheral.Bypass.Shadow
import FuguexPeripheral.Bypass.Subpiece
import FuguexPeripheral.Bypass.Widths
import FuguexPeripheral.V850.ByteOrder
import FuguexPeripheral.Bypass.ForgivenJump
import FuguexPeripheral.Bypass.SessionEnd
import FuguexPeripheral.Interleaving
import FuguexPeripheral.Polling.Memory
import FuguexPeripheral.V850.Clones
import FuguexPeripheral.V850.SharedSocket
import FuguexPeripheral.Commuting
import FuguexPeripheral.V850.ReadOrder
import FuguexPeripheral.V850.Footprint
import FuguexPeripheral.Bypass.SharedCache
import FuguexPeripheral.Bypass.Definedness
import FuguexPeripheral.Laps
import FuguexPeripheral.Backend.EveryTick
import FuguexPeripheral.SuperH.Balance
import FuguexPeripheral.SuperH.Countdown
import FuguexPeripheral.Bypass.Deaf
import FuguexPeripheral.C166.Shown
import FuguexPeripheral.SuperH.EveryMatch
import FuguexPeripheral.Interrupt.Entry
import FuguexPeripheral.Bypass.Iterations
import FuguexPeripheral.V850.Survival
import FuguexPeripheral.SuperH.Cadence
import FuguexPeripheral.Bypass.Revisits
