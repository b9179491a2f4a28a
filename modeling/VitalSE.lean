import VitalSE.Proofs.MemoryOperationSound
import VitalSE.Proofs.ExternalSound
import VitalSE.Proofs.TerminationSound
import VitalSE.Proofs.ImmutableTreeSound
import VitalSE.Proofs.LargeObjectSound
import VitalSE.Proofs.SplittedSearcherSound
import VitalSE.Proofs.ConservationSound
import VitalSE.Proofs.RandomPathSound
import VitalSE.Proofs.ArrayNamesSound
import VitalSE.Proofs.CanonicalSound
import VitalSE.Proofs.SlotAllocatorSound
import VitalSE.Proofs.MergingSound
import VitalSE.Proofs.SeedsSound
import VitalSE.Proofs.CompareSound
import VitalSE.Proofs.SolutionSound
import VitalSE.Proofs.ResolveLimit
import VitalSE.Proofs.CacheHits
import VitalSE.Proofs.FlushSound
import VitalSE.Proofs.RangeQuerySound
import VitalSE.Proofs.CreateTerminates
import VitalSE.Proofs.RecordsSound
import VitalSE.Proofs.IntrinsicsSound
import VitalSE.Proofs.CexFailures
import VitalSE.Support.Time
import VitalSE.Expr.ParseNumber
import VitalSE.Runtime.Memmove
