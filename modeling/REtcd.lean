import REtcd.Server.CancelCtx
import REtcd.Server.Deleted
import REtcd.Server.FailedTxn
import REtcd.Server.FastPath
import REtcd.Server.Fresh
import REtcd.Server.Headers
import REtcd.Server.Inflight
import REtcd.Server.Isolation
import REtcd.Server.Liveness
import REtcd.Server.Newer
import REtcd.Server.Protocol
import REtcd.Server.Resume
import REtcd.Server.Revoked
import REtcd.Server.Rounds
import REtcd.Server.Session
import REtcd.Server.Sink
import REtcd.Server.Startup
import REtcd.Server.Swap
import REtcd.Server.TestDouble
import REtcd.Server.TimeToLive
import REtcd.Server.Tracking
import REtcd.Store.Migration
