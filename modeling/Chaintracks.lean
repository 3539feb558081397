import Chaintracks.Checked
import Chaintracks.TipFlag
import Chaintracks.Served
import Chaintracks.Delivery
import Chaintracks.Lease
import Chaintracks.ActiveHeights
import Chaintracks.LiveJournal
import Chaintracks.Work
import Chaintracks.ReorgMarker
import Chaintracks.TipDelivery
import Chaintracks.LiveFinality
import Chaintracks.Refusal
import Chaintracks.StoredHeights
import Chaintracks.Backfill
import Chaintracks.Sweep
import Chaintracks.Spelling
import Chaintracks.Retention
import Chaintracks.PushHint
import Chaintracks.ExportLayout
import Chaintracks.Judgment
import Chaintracks.Coverage
import Chaintracks.WindowSums
import Chaintracks.HeaderForest
import Chaintracks.EventStream
import Chaintracks.Paging
import Chaintracks.ServedRange
import Chaintracks.LinkCheck
import Chaintracks.WorkRepair
import Chaintracks.CourierTick
import Chaintracks.HandOver
import Chaintracks.TipFall
import Chaintracks.RevalidationSteps
import Chaintracks.RungRecords
import Chaintracks.FeedStream
import Chaintracks.BatchSpelling
import Chaintracks.Bootstrap
import Chaintracks.Replica
import Chaintracks.EdgeCache
