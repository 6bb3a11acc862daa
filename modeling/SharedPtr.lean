import SharedPtr.Lib.Linearizable
import SharedPtr.AddRefLock
import SharedPtr.SpAtomicLinear
import SharedPtr.AtomicWait
import SharedPtr.Modes
import SharedPtr.Expiry
import SharedPtr.UseCount
import SharedPtr.Reentrancy
import SharedPtr.FastPath
import SharedPtr.UnderLock
import SharedPtr.AtomicConst
import SharedPtr.StrongGuarantee
import SharedPtr.ArrayExceptions
import SharedPtr.ForOverwrite
import SharedPtr.OwnerOrder
import SharedPtr.SharedFromThis
import SharedPtr.Reassignment
import SharedPtr.ReverseOrder
import SharedPtr.Placement
import SharedPtr.AtomicArithmetic
import SharedPtr.OutPtr
import SharedPtr.CompareExchange
import SharedPtr.CyclicFill
import SharedPtr.Adaptors
import SharedPtr.UniqueOwners
import SharedPtr.SoleOwnership
import SharedPtr.WeakUpcast
import SharedPtr.SafeUpcast
import SharedPtr.RetryLoops
import SharedPtr.LockedObjects
import SharedPtr.GetDeleter
import SharedPtr.WaitAddress
import SharedPtr.Semaphore
import SharedPtr.Latch
import SharedPtr.BarrierOpens
import SharedPtr.AtomicProgress
import SharedPtr.CommitOrRollback
import SharedPtr.Relocation
import SharedPtr.Shortcuts
import SharedPtr.ElementStorage
