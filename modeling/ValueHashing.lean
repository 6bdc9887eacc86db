import ValueHashing.BucketTable
import ValueHashing.Session
import ValueHashing.Shape.Order
import ValueHashing.Proofs.Absorber.Closing
import ValueHashing.Proofs.BucketTable.Runs
import ValueHashing.Proofs.Encoding.Decodability
import ValueHashing.Proofs.Encoding.Flags
import ValueHashing.Proofs.Feed.Erasure
import ValueHashing.Proofs.Feed.Staging
import ValueHashing.Proofs.Hmac.Keys
import ValueHashing.Proofs.Hmac.Verification
import ValueHashing.Proofs.Sha2.Collisions
import ValueHashing.Proofs.Sha2.Compression
import ValueHashing.Proofs.Sha2.Digest
import ValueHashing.Proofs.Encoding.WrappedCounts
import ValueHashing.Proofs.Projection
import ValueHashing.Proofs.Encoding.ByteOrders
import ValueHashing.Proofs.Reports
import ValueHashing.Proofs.Truncation
