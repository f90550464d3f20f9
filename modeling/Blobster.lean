import Blobster.Locker.Exclusion
import Blobster.Queue.DeadLetter
import Blobster.Queue.Payload
import Blobster.Queue.Burial
import Blobster.Queue.Loss
import Blobster.Queue.CleanSlate
import Blobster.Driver.Conditions
import Blobster.Driver.Handles
import Blobster.Locker.Loss
import Blobster.Queue.LateCommit
import Blobster.Azure.Tailing
import Blobster.S3.TornCopy
import Blobster.Queue.WrittenOnce
import Blobster.Queue.Residue
import Blobster.Queue.Shrinking
import Blobster.Driver.Ranges
import Blobster.Driver.SeekReader
import Blobster.Locker.Failure
import Blobster.Queue.Complete
import Blobster.Queue.Backlog
import Blobster.Queue.Ids
import Blobster.Driver.Refinement
import Blobster.Azure.CopyPoll
import Blobster.Driver.SeekEnd
import Blobster.S3.UpdateMetadata
import Blobster.S3.Dedup
import Blobster.S3.Stranded
import Blobster.Azure.Metadata
import Blobster.Queue.Races
import Blobster.Queue.Settling
import Blobster.Watcher.NoGap
import Blobster.Watcher.Cursor
import Blobster.Watcher.Integrity
