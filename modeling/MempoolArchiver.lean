import MempoolArchiver.GoString
import MempoolArchiver.Csv
import MempoolArchiver.Types
import MempoolArchiver.Loader
import MempoolArchiver.SortSlice
import MempoolArchiver.Merge
import MempoolArchiver.InclusionPool
import MempoolArchiver.RoundTrip
import MempoolArchiver.Analyzer
import MempoolArchiver.Latency
import MempoolArchiver.MergeRun
